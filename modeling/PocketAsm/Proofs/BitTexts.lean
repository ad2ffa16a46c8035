/-
  Proofs/BitTexts.lean --- fields as texts of binary digits.

  A text of binary digits is read as the number of its bits, the sign bit
  counted or not (`Bits.readField?_text`).  Bits of one length that have the
  same number are the same (`Bits.eq_of_toNat_eq`), so reading and encoding
  undo each other in both directions (`Bits.number_of_encode`,
  `Bits.encode_number`), field by field and word by word
  (`fields_are_read_back`).
-/
import PocketAsm.Bits.Checked
import PocketAsm.Proofs.Bytes
import PocketAsm.Proofs.Fields

set_option autoImplicit false

namespace PocketAsm

/-! ## Reading digits -/

namespace Text

theorem trim_of_forall {p : Char → Bool} {cs : List Char} (h : ∀ c ∈ cs, p c = false) :
    trim p cs = cs := by
  have hlast : ∀ c ∈ cs.reverse.head?, p c = false := fun c hc =>
    h c (List.mem_reverse.mp (List.mem_of_mem_head? hc))
  rw [trim, trimLeft, dropWhile_eq_self fun c hc => h c (List.mem_of_mem_head? hc), trimRight,
    dropWhile_eq_self hlast, List.reverse_reverse]

/-- Digits are read one after the other. -/
theorem moreDigits_cons {radix : Nat} {c : Char} (hc : c ≠ '_') (acc : Nat) (cs : List Char) :
    moreDigits radix acc (c :: cs) =
      (digitIn? radix c).bind fun n => moreDigits radix (acc * radix + n) cs := by
  cases cs with
  | nil =>
    rw [moreDigits]
    cases digitIn? radix c <;> rfl
  | cons d cs =>
    rw [moreDigits, if_neg hc]
    cases digitIn? radix c <;> rfl

end Text

namespace Bits

/-! ## Binary digits -/

/-- The text is made of binary digits. -/
def IsBinary (s : String) : Prop := ∀ c ∈ s.toList, c = '0' ∨ c = '1'

instance (s : String) : Decidable (IsBinary s) :=
  decidable_of_iff (s.toList.all (fun c => c == '0' || c == '1') = true)
    (by simp only [List.all_eq_true, Bool.or_eq_true, beq_iff_eq, IsBinary])

@[simp] theorem toList_text (bits : Bits) : (text bits).toList = bits.map digit := by
  rw [text, String.toList_ofList]

@[simp] theorem length_text (bits : Bits) : (text bits).length = bits.length := by
  rw [← String.length_toList, toList_text, List.length_map]

theorem isBinary_text (bits : Bits) : IsBinary (text bits) := by
  intro c hc
  rw [toList_text] at hc
  obtain ⟨b, -, rfl⟩ := List.mem_map.mp hc
  cases b with
  | false => exact .inl rfl
  | true => exact .inr rfl

/-- A text of binary digits is the text of its bits. -/
theorem text_ofText {s : String} (h : IsBinary s) : text (ofText s) = s := by
  have hdigits : s.toList.map (digit ∘ (· == '1')) = s.toList := by
    conv_rhs => rw [← List.map_id s.toList]
    refine List.map_congr_left fun c hc => ?_
    rcases h c hc with rfl | rfl <;> rfl
  rw [text, ofText, List.map_map, hdigits, String.ofList_toList]

@[simp] theorem length_ofText (s : String) : (ofText s).length = s.length := by
  rw [ofText, List.length_map, String.length_toList]

section Digits

variable (b : Bool)

theorem digitIn?_digit : Text.digitIn? 2 (digit b) = some b.toNat := by
  cases b <;> rfl

theorem digit_ne {c : Char} (hc : c ≠ '0' ∧ c ≠ '1') : digit b ≠ c := by
  cases b with
  | false => exact hc.1.symm
  | true => exact hc.2.symm

theorem isMargin_digit : Text.isMargin (digit b) = false := by
  cases b <;> rfl

theorem asciiDigit_digit : Text.asciiDigit (digit b) = digit b := by
  cases b <;> rfl

/-- A binary digit marks no radix. -/
theorem radixOfMark?_digit : Text.radixOfMark? (digit b) = none := by
  cases b <;> rfl

end Digits

theorem moreDigits_digits (bits : Bits) (acc : Nat) :
    Text.moreDigits 2 acc (bits.map digit) =
      some (bits.foldl (fun acc b => 2 * acc + b.toNat) acc) := by
  induction bits generalizing acc with
  | nil => rfl
  | cons b bits ih =>
    rw [List.map_cons, Text.moreDigits_cons (digit_ne b (by decide)), digitIn?_digit,
      Option.bind_some, ih, Nat.mul_comm, List.foldl_cons]

theorem readMagnitude_digits {bits : Bits} (hne : bits ≠ []) :
    Text.readMagnitude 2 (bits.map digit) = some (toNat bits) := by
  have hdigits : Text.readDigits 2 (bits.map digit) = some (toNat bits) := by
    obtain ⟨b, bits, rfl⟩ := List.exists_cons_of_ne_nil hne
    have hstart : 2 * 0 + b.toNat = b.toNat := by rw [Nat.mul_zero, Nat.zero_add]
    rw [List.map_cons, Text.readDigits, if_neg (by simp [Text.isOverlong]), digitIn?_digit]
    dsimp only
    rw [moreDigits_digits, toNat, List.foldl_cons, hstart]
  unfold Text.readMagnitude
  split
  · rename_i m rest hcs
    obtain ⟨c, -, rfl⟩ := List.mem_map.mp (hcs ▸ List.mem_cons_of_mem _ List.mem_cons_self)
    rw [radixOfMark?_digit, if_neg (by simp), hdigits]
  · exact hdigits

/-- The text of bits is read as their number. -/
theorem readInt_text {bits : Bits} (hne : bits ≠ []) :
    Text.readInt 2 (text bits) = some (toNat bits : Int) := by
  have hplain : (Text.trim Text.isMargin (text bits).toList).map Text.asciiDigit =
      bits.map digit := by
    rw [toList_text, Text.trim_of_forall, List.map_map]
    · exact List.map_congr_left fun b _ => asciiDigit_digit b
    · intro c hc
      obtain ⟨b, -, rfl⟩ := List.mem_map.mp hc
      exact isMargin_digit b
  have hread := readMagnitude_digits hne
  obtain ⟨b, bits, rfl⟩ := List.exists_cons_of_ne_nil hne
  rw [Text.readInt, Text.readSigned, hplain]
  rw [List.map_cons] at hread ⊢
  split
  · rename_i hsign
    exact absurd (List.cons.inj hsign).1 (digit_ne b (by decide))
  · rename_i hsign
    exact absurd (List.cons.inj hsign).1 (digit_ne b (by decide))
  · rw [hread]
    rfl

/-! ## Numbers of bits -/

/-- The number of bits, the first of which may be a sign. -/
def number (bits : Bits) (signed : Bool) : Int := if signed then bits.toInt else bits.toNat

theorem readField?_text {bits : Bits} (hne : bits ≠ []) (signed : Bool) :
    readField? (text bits) signed = some (number bits signed) := by
  have hfirst : ((text bits).toList.head? == some '1') = decide (bits.head? = some true) := by
    obtain ⟨b, bits, rfl⟩ := List.exists_cons_of_ne_nil hne
    cases b <;> simp [digit]
  rw [readField?, readInt_text hne]
  dsimp only
  rw [hfirst, length_text, number, toInt]
  cases signed with
  | false => rfl
  | true => simp only [Bool.true_and, decide_eq_true_eq, if_true]

/-- Half of the strings of bits begin with a one. -/
theorem span_le_iff (bits : Bits) :
    span bits.length ≤ 2 * toNat bits ↔ bits.head? = some true := by
  cases bits with
  | nil => simp [span]
  | cons b bits =>
    have hvalue := toNat_append [b] bits
    have hlt := toNat_lt bits
    rw [List.singleton_append] at hvalue
    rw [hvalue, List.length_cons, span_succ]
    cases b with
    | false => simp [toNat] at hlt ⊢; omega
    | true => simp [toNat]

/-- Bits that are read with their sign are those without it, extended. -/
theorem signExtend_toNat (bits : Bits) : signExtend (toNat bits) bits.length = toInt bits := by
  have hlow : ((toNat bits : Int) % span bits.length) = toNat bits :=
    Int.emod_eq_of_lt (Int.natCast_nonneg _) (by exact_mod_cast toNat_lt bits)
  have hsign : (span bits.length : Int) ≤ 2 * toNat bits ↔ bits.head? = some true := by
    rw [← span_le_iff]
    norm_cast
  simp only [signExtend, hlow, toInt, hsign]

/-- Bits of one length are told apart by their numbers. -/
theorem eq_of_toNat_eq {first second : Bits} (hlength : first.length = second.length)
    (h : toNat first = toNat second) : first = second := by
  induction first generalizing second with
  | nil => exact (List.length_eq_zero_iff.mp hlength.symm).symm
  | cons b first ih =>
    obtain ⟨c, second, rfl⟩ : ∃ c rest, second = c :: rest :=
      List.exists_cons_of_length_pos (hlength ▸ Nat.succ_pos _)
    have hrest : first.length = second.length := Nat.succ.inj hlength
    have hfirst := toNat_append [b] first
    have hsecond := toNat_append [c] second
    have hlow := toNat_lt first
    have hlow' := toNat_lt second
    rw [List.singleton_append] at hfirst hsecond
    rw [hfirst, hsecond, hrest] at h
    rw [hrest] at hlow
    have hbit : b = c ∧ toNat first = toNat second := by
      cases b <;> cases c <;> simp [toNat] at h hlow hlow' ⊢ <;> omega
    rw [hbit.1, ih hrest hbit.2]

theorem ofNat_toNat (bits : Bits) : ofNat bits.length (toNat bits) = bits :=
  eq_of_toNat_eq (length_ofNat _ _)
    (by rw [toNat_ofNat, Nat.mod_eq_of_lt (toNat_lt bits)])

/-! ## Fields -/

theorem span_cast (width : Nat) : ((span width : Nat) : Int) = 2 ^ width := by
  rw [span, Nat.pow_eq]
  norm_cast

theorem range_eq (width : Nat) (signed : Bool) : range width signed =
    if signed then (-2 ^ (width - 1), 2 ^ (width - 1) - 1) else (0, 2 ^ width - 1) := by
  rw [range, span_cast, span_cast]

/-- There is a field of any width but zero. -/
theorem width?_of_pos {width : Nat} (hwidth : 1 ≤ width) (signed : Bool) :
    width? width signed = some width := by
  rw [width?, if_pos (by split <;> omega), Int.toNat_natCast]

theorem encode?_of_pos {width : Nat} (hwidth : 1 ≤ width) (v : Int) (signed : Bool) :
    encode? v width signed = some (encode v width signed) := by
  rw [encode?, width?_of_pos hwidth, Option.map_some]

theorem encode?_eq_ok {v : Int} {width : Nat} {signed : Bool} {bits : Bits} (hwidth : 1 ≤ width) :
    encode? v width signed = some (.ok bits) ↔ encode v width signed = .ok bits := by
  rw [encode?_of_pos hwidth, Option.some.injEq]

theorem exists_encode_iff {v : Int} {width : Nat} {signed : Bool} :
    (∃ bits, encode v width signed = .ok bits) ↔
      (range width signed).1 ≤ v ∧ v ≤ (range width signed).2 :=
  ⟨fun ⟨_, h⟩ => (eq_ofNat_of_encode h).1, fun h => ⟨_, if_pos h⟩⟩

/-- An operand field takes the values from the least negative one on. -/
theorem exists_encodeField_iff {v : Int} {width : Nat} {signed : Bool} :
    (∃ bits, encodeField v width signed = .ok bits) ↔
      -2 ^ (width - 1) ≤ v ∧ v ≤ (if signed then 2 ^ (width - 1) - 1 else 2 ^ width - 1) := by
  have hhalf := span_pos (width - 1)
  have hwhole := span_pos width
  rw [← span_cast, ← span_cast, encodeField, exists_encode_iff, range]
  cases signed with
  | true => simp
  | false =>
    by_cases hneg : v < 0
    · simp only [hneg, decide_true, Bool.or_true, if_true, Bool.false_eq_true, if_false]
      have hle : (span (width - 1) : Int) ≤ span width := by
        exact_mod_cast Nat.pow_le_pow_right (by decide) (Nat.sub_le width 1)
      omega
    · simp only [hneg, decide_false, Bool.or_false, Bool.false_eq_true, if_false]
      omega

/-- What is encoded has the value for its number. -/
theorem number_of_encode {v : Int} {width : Nat} {signed : Bool} {bits : Bits}
    (hwidth : 1 ≤ width) (h : encode v width signed = .ok bits) : number bits signed = v := by
  cases signed with
  | true =>
    have hlength := length_of_encode h
    have hread : signExtend (toNat bits) width = v := signExtend_of_encodeField hwidth h
    rw [← hlength, signExtend_toNat] at hread
    exact hread
  | false =>
    obtain ⟨hrange, rfl⟩ := eq_ofNat_of_encode h
    simp only [range, Bool.false_eq_true, if_false] at hrange
    have hmod : v % span width = v := Int.emod_eq_of_lt hrange.1 (by omega)
    rw [number, if_neg Bool.false_ne_true, toNat_ofNat, hmod, Nat.mod_eq_of_lt (by omega)]
    omega

/-- The number of bits is encoded to them. -/
theorem encode_number {bits : Bits} (hne : bits ≠ []) (signed : Bool) :
    encode (number bits signed) bits.length signed = .ok bits := by
  have hlt := toNat_lt bits
  have hspan := span_pred (List.length_pos_of_ne_nil hne)
  have hsign := span_le_iff bits
  have hmod : number bits signed % span bits.length = toNat bits := by
    have hlow : (toNat bits : Int) % span bits.length = toNat bits :=
      Int.emod_eq_of_lt (Int.natCast_nonneg _) (by exact_mod_cast hlt)
    rw [number, toInt]
    split
    · split
      · rw [Int.sub_emod_right, hlow]
      · exact hlow
    · exact hlow
  have hrange : (range bits.length signed).1 ≤ number bits signed ∧
      number bits signed ≤ (range bits.length signed).2 := by
    cases signed with
    | true =>
      simp only [number, range, toInt, if_true]
      split
      · rename_i hone
        have hhigh := hsign.mpr hone
        omega
      · rename_i hzero
        have hlow := mt hsign.mp hzero
        omega
    | false =>
      simp only [number, range, Bool.false_eq_true, if_false]
      omega
  simp only [encode, hmod, Int.toNat_natCast, ofNat_toNat]
  exact if_pos hrange

/-! ## Fields as texts -/

/-- What is encoded is read back from its digits. -/
theorem readField?_of_encode {v : Int} {width : Nat} {signed : Bool} {bits : Bits}
    (hwidth : 1 ≤ width) (h : encode? v width signed = some (.ok bits)) :
    (text bits).length = width ∧ IsBinary (text bits) ∧
      readField? (text bits) signed = some v := by
  have hencode := (encode?_eq_ok hwidth).mp h
  have hlength := length_of_encode hencode
  have hne : bits ≠ [] := List.ne_nil_of_length_pos (by omega)
  refine ⟨by rw [length_text, hlength], isBinary_text bits, ?_⟩
  rw [readField?_text hne, number_of_encode hwidth hencode]

/-- The digits of an operand field are those of its value modulo the number of such texts. -/
theorem readField?_of_encodeField {v : Int} {width : Nat} {signed : Bool} {bits : Bits}
    (hwidth : 1 ≤ width) (h : encodeField v width signed = .ok bits) :
    readField? (text bits) false = some (v % 2 ^ width) := by
  have hlength := length_of_encodeField h
  have hne : bits ≠ [] := List.ne_nil_of_length_pos (by omega)
  rw [readField?_text hne, ← span_cast, ← toNat_of_encodeField h]
  rfl

section Digits

variable {s : String} (hs : s ≠ "") (hbinary : IsBinary s)

include hs hbinary

theorem ofText_ne_nil : ofText s ≠ [] := by
  intro hnil
  have htext := text_ofText hbinary
  rw [hnil] at htext
  exact hs htext.symm

/-- Digits are read as a number that they are the encoding of. -/
theorem readField?_of_isBinary (signed : Bool) :
    readField? s signed = some (number (ofText s) signed) ∧
      encode? (number (ofText s) signed) s.length signed = some (.ok (ofText s)) := by
  have hne := ofText_ne_nil hs hbinary
  have hread := readField?_text hne signed
  have hencode := encode_number hne signed
  rw [text_ofText hbinary] at hread
  rw [length_ofText] at hencode
  have hwidth : 1 ≤ s.length := length_ofText s ▸ List.length_pos_of_ne_nil hne
  exact ⟨hread, (encode?_eq_ok hwidth).mpr hencode⟩

/-- The sign can be added to what was read without it. -/
theorem signExtend?_of_isBinary :
    signExtend? (number (ofText s) false) s.length = readField? s true := by
  have hne := ofText_ne_nil hs hbinary
  have hwidth : 1 ≤ s.length := length_ofText s ▸ List.length_pos_of_ne_nil hne
  rw [(readField?_of_isBinary hs hbinary true).1, signExtend?, width?_of_pos hwidth,
    ← length_ofText s]
  exact congrArg some (signExtend_toNat (ofText s))

end Digits

/-! ## Words -/

/-- Fields that are written one after the other are the text of all their bits. -/
theorem join_text (fields : List Bits) : String.join (fields.map text) = text fields.flatten := by
  rw [← String.toList_inj, String.toList_join, toList_text, List.map_flatten, List.flatMap_map,
    List.flatMap_def]
  simp only [toList_text]

/-- A text of binary digits is cut into the words of its bits. -/
theorem readWords?_text {size : Nat} (hsize : 0 < size) (bits : Bits) :
    readWords? (text bits) size = some ((words size bits).map Int.ofNat) := by
  have hread : (pieces size (bits.map digit)).mapM
      (fun piece => Text.readInt 2 (String.ofList piece)) =
        some ((words size bits).map Int.ofNat) := by
    induction bits using pieces_induction hsize with
    | nil => rfl
    | cons bits hne ih =>
      have hfirst : bits.take size ≠ [] := by
        rw [Ne, List.take_eq_nil_iff, not_or]
        exact ⟨hsize.ne', hne⟩
      have hword : Text.readInt 2 (String.ofList ((bits.map digit).take size)) =
          some (toNat (bits.take size) : Int) := by
        rw [← List.map_take]
        exact readInt_text hfirst
      have hwords : words size bits = toNat (bits.take size) :: words size (bits.drop size) := by
        rw [words, pieces_eq_cons hsize hne, List.map_cons, words]
      rw [pieces_eq_cons hsize (by simpa using hne), List.mapM_cons, hword, ← List.map_drop, ih,
        hwords]
      rfl
  rw [readWords?, if_neg (by omega), if_neg (by omega), Int.toNat_natCast, toList_text, hread]

/-- A word is the number of its bits, which encode it. -/
theorem word_encoded {size : Nat} (hsize : 1 ≤ size) {piece : Bits} (h : piece.length = size) :
    toNat piece < 2 ^ size ∧ encode? (toNat piece) size false = some (.ok piece) := by
  have hne : piece ≠ [] := List.ne_nil_of_length_pos (h ▸ hsize)
  have hlt := toNat_lt_of_length h
  rw [span, Nat.pow_eq] at hlt
  refine ⟨hlt, ?_⟩
  rw [encode?_eq_ok hsize, ← h]
  exact encode_number hne false

end Bits

/-! ## Reading and encoding -/

open Bits

/-- Reading and encoding undo each other.  A field takes the values of its range and no others; the
digits are as many as it has bits, and they are read back as the value.  Every text of digits is
that of the value it is read as, with its sign or without; the sign can also be added afterwards.
An operand field takes the negative values of the signed range too, and holds them modulo the number
of its texts.  Whole words, each a field of its own, make up the text that they are cut from. -/
theorem fields_are_read_back :
    (∀ (width : Nat) (signed : Bool) (v : Int), 1 ≤ width →
      ∃ low high, range? width signed = some (low, high) ∧
        (low, high) = (if signed then (-2 ^ (width - 1), 2 ^ (width - 1) - 1)
          else (0, 2 ^ width - 1)) ∧
        ((∃ bits, encode? v width signed = some (.ok bits)) ↔ low ≤ v ∧ v ≤ high) ∧
        ∀ bits, encode? v width signed = some (.ok bits) →
          (text bits).length = width ∧ IsBinary (text bits) ∧
            readField? (text bits) signed = some v) ∧
    (∀ s : String, s ≠ "" → IsBinary s →
      (∀ signed, ∃ v bits, readField? s signed = some v ∧
        encode? v s.length signed = some (.ok bits) ∧ text bits = s) ∧
      ∃ n, readField? s false = some n ∧ signExtend? n s.length = readField? s true) ∧
    (∀ (width : Nat) (signed : Bool) (v : Int), 1 ≤ width →
      ((∃ bits, encodeField? v width signed = some (.ok bits)) ↔
        -2 ^ (width - 1) ≤ v ∧ v ≤ (if signed then 2 ^ (width - 1) - 1 else 2 ^ width - 1)) ∧
      ∀ bits, encodeField? v width signed = some (.ok bits) →
        readField? (text bits) false = some (v % 2 ^ width)) ∧
    (∀ (size count : Nat) (s : String), 1 ≤ size → IsBinary s → s.length = count * size →
      let ns := words size (ofText s)
      readWords? s size = some (ns.map Int.ofNat) ∧ ns.length = count ∧
        ∃ fields : List Bits, String.join (fields.map text) = s ∧
          List.Forall₂ (fun (n : Nat) bits => n < 2 ^ size ∧
            encode? n size false = some (.ok bits)) ns fields) := by
  refine ⟨fun width signed v hwidth => ?_, fun s hs hbinary => ⟨fun signed => ?_, ?_⟩,
    fun width signed v hwidth => ?_, fun size count s hsize hbinary hlength => ?_⟩
  · have hrange : range? width signed = some (range width signed) := by
      rw [range?, width?_of_pos hwidth, Option.map_some]
    refine ⟨(range width signed).1, (range width signed).2, hrange, range_eq width signed, ?_,
      fun bits => readField?_of_encode hwidth⟩
    simp only [encode?_eq_ok hwidth, exists_encode_iff]
  · obtain ⟨hread, hencode⟩ := readField?_of_isBinary hs hbinary signed
    exact ⟨_, _, hread, hencode, text_ofText hbinary⟩
  · exact ⟨_, (readField?_of_isBinary hs hbinary false).1, signExtend?_of_isBinary hs hbinary⟩
  · have hfield : encodeField? v width signed = some (encodeField v width signed) :=
      encode?_of_pos hwidth v _
    simp only [hfield, Option.some.injEq]
    exact ⟨exists_encodeField_iff, fun bits => readField?_of_encodeField hwidth⟩
  · intro ns
    have hbits : (ofText s).length = size * count := by rw [length_ofText, hlength, Nat.mul_comm]
    have hwhole := pieces_whole hsize hbits
    refine ⟨?_, ?_, pieces size (ofText s), ?_, ?_⟩
    · rw [← readWords?_text hsize, text_ofText hbinary]
    · exact (List.length_map _).trans hwhole.1
    · rw [join_text, flatten_pieces hsize, text_ofText hbinary]
    · exact List.forall₂_map_left_iff.mpr (List.forall₂_same.mpr fun piece hpiece =>
        word_encoded hsize (hwhole.2 piece hpiece))

/-- A text is read as a negative value and as one that is not, an unsigned operand field takes the
negative one, and a text of two bytes is cut in two. -/
theorem signed_nibble_is_read_back :
    (∃ bits, encode? (-3) 4 true = some (.ok bits) ∧ readField? (text bits) true = some (-3)) ∧
      (∃ n, readField? "1101" false = some n ∧ signExtend? n 4 = readField? "1101" true) ∧
      (∃ bits, encodeField? (-1) 8 false = some (.ok bits) ∧
        readField? (text bits) false = some 255) ∧
      readWords? "0000001010010110" 8 =
        some ((words 8 (ofText "0000001010010110")).map Int.ofNat) := by
  obtain ⟨hfield, htext, hoperand, hwords⟩ := fields_are_read_back
  refine ⟨?_, (htext "1101" (by decide) (by decide +kernel)).2, ?_,
    (hwords 8 2 "0000001010010110" (by decide) (by decide +kernel) rfl).1⟩
  · obtain ⟨low, high, -, hbounds, hfits, hread⟩ := hfield 4 true (-3) (by decide)
    obtain ⟨rfl, rfl⟩ := Prod.mk.inj hbounds
    obtain ⟨bits, hbits⟩ := hfits.mpr (by decide)
    exact ⟨bits, hbits, (hread bits hbits).2.2⟩
  · obtain ⟨hfits, hread⟩ := hoperand 8 false (-1) (by decide)
    obtain ⟨bits, hbits⟩ := hfits.mpr (by decide)
    exact ⟨bits, hbits, hread bits hbits⟩

end PocketAsm

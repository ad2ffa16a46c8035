/-
  Proofs/Bytes.lean --- instructions of several words, and the words that a line reserves.

  A list is cut into pieces of one size, all of it and in its order
  (`Bits.pieces_eq_cons`, `Bits.flatten_pieces`).  The words of an instruction
  are the numbers of its fields where a field fills a word
  (`Bits.words_append`), and two of them where it fills two
  (`Bits.words_append_double`).  A line that places one instruction reserves its
  words (`Dialect.reservedAt_of_place`).
-/
import PocketAsm.Proofs.Encoding

set_option autoImplicit false

namespace PocketAsm

namespace Bits

/-! ## Pieces -/

section Pieces

variable {α : Type} {size : Nat}

/-- More pieces than there are elements are never needed. -/
theorem piecesFrom_of_le (hsize : 0 < size) :
    ∀ (fuel : Nat) (xs : List α), xs.length ≤ fuel →
      piecesFrom size fuel xs = piecesFrom size xs.length xs := by
  intro fuel
  induction fuel using Nat.strong_induction_on with
  | h fuel ih =>
    intro xs hle
    cases xs with
    | nil => cases fuel <;> rfl
    | cons x xs =>
      obtain ⟨fuel, rfl⟩ : ∃ n, fuel = n + 1 := Nat.exists_eq_add_one.mpr (by simp at hle; omega)
      have hdrop : ((x :: xs).drop size).length ≤ xs.length := by
        rw [List.length_drop, List.length_cons]
        omega
      rw [List.length_cons] at hle
      rw [List.length_cons, piecesFrom, piecesFrom, ih fuel (by omega) _ (by omega),
        ih xs.length (by omega) _ hdrop]
      all_goals simp

/-- The first piece, and the pieces of the rest. -/
theorem pieces_eq_cons (hsize : 0 < size) {xs : List α} (hne : xs ≠ []) :
    pieces size xs = xs.take size :: pieces size (xs.drop size) := by
  obtain ⟨x, rest, rfl⟩ := List.exists_cons_of_ne_nil hne
  have hdrop : ((x :: rest).drop size).length ≤ rest.length := by
    rw [List.length_drop, List.length_cons]
    omega
  rw [pieces, List.length_cons, piecesFrom, piecesFrom_of_le hsize _ _ hdrop]
  · rfl
  · exact List.cons_ne_nil x rest

/-- Induction over the pieces of a list. -/
theorem pieces_induction (hsize : 0 < size) {P : List α → Prop} (nil : P [])
    (cons : ∀ xs, xs ≠ [] → P (xs.drop size) → P xs) (xs : List α) : P xs := by
  induction hn : xs.length using Nat.strong_induction_on generalizing xs with
  | h n ih =>
    rcases eq_or_ne xs [] with rfl | hne
    · exact nil
    · have hpos := List.length_pos_of_ne_nil hne
      exact cons xs hne (ih (xs.drop size).length (by rw [List.length_drop]; omega) _ rfl)

theorem flatten_pieces (hsize : 0 < size) (xs : List α) : (pieces size xs).flatten = xs := by
  induction xs using pieces_induction hsize with
  | nil => rfl
  | cons xs hne ih => rw [pieces_eq_cons hsize hne, List.flatten_cons, ih, List.take_append_drop]

/-- There are as many pieces as the size goes into the length, rounded up. -/
theorem length_pieces (hsize : 0 < size) (xs : List α) :
    (pieces size xs).length = (xs.length + size - 1) / size := by
  induction xs using pieces_induction hsize with
  | nil => exact (Nat.div_eq_of_lt (by simpa using hsize)).symm
  | cons xs hne ih =>
    have hpos := List.length_pos_of_ne_nil hne
    rw [pieces_eq_cons hsize hne, List.length_cons, ih, List.length_drop]
    rcases Nat.le_total xs.length size with hle | hle
    · have hone : (xs.length + size - 1) / size = 1 :=
        Nat.div_eq_of_lt_le (by omega) (by omega)
      rw [Nat.sub_eq_zero_of_le hle, Nat.zero_add, Nat.div_eq_of_lt (by omega), hone]
    · rw [show xs.length + size - 1 = xs.length - size + size - 1 + size by omega,
        Nat.add_div_right _ hsize]

/-- A list of whole pieces has no shorter one. -/
theorem length_of_mem_pieces (hsize : 0 < size) {xs : List α} (h : size ∣ xs.length) :
    ∀ piece ∈ pieces size xs, piece.length = size := by
  induction xs using pieces_induction hsize with
  | nil => simp [pieces, piecesFrom]
  | cons xs hne ih =>
    have hle : size ≤ xs.length := Nat.le_of_dvd (List.length_pos_of_ne_nil hne) h
    rw [pieces_eq_cons hsize hne, List.forall_mem_cons]
    refine ⟨List.length_take_of_le hle, ih ?_⟩
    rw [List.length_drop]
    exact Nat.dvd_sub h (Nat.dvd_refl size)

/-- A list that is made of whole pieces is in so many pieces. -/
theorem pieces_whole (hsize : 0 < size) {n : Nat} {xs : List α} (h : xs.length = size * n) :
    (pieces size xs).length = n ∧ ∀ piece ∈ pieces size xs, piece.length = size := by
  refine ⟨?_, length_of_mem_pieces hsize ⟨n, h⟩⟩
  rw [length_pieces hsize, h, Nat.add_sub_assoc hsize, Nat.mul_add_div hsize,
    Nat.div_eq_of_lt (Nat.sub_lt hsize Nat.one_pos), Nat.add_zero]

end Pieces

/-! ## Words -/

@[simp] theorem words_nil (size : Nat) : words size [] = [] := rfl

/-- Bits that fill a word are the first word. -/
theorem words_append {size : Nat} {first : Bits} (hsize : 0 < size) (h : first.length = size)
    (rest : Bits) : words size (first ++ rest) = toNat first :: words size rest := by
  have hne : first ++ rest ≠ [] :=
    List.append_ne_nil_of_left_ne_nil (List.ne_nil_of_length_pos (h ▸ hsize)) rest
  rw [words, pieces_eq_cons hsize hne, List.take_left' h, List.drop_left' h, List.map_cons, words]

/-- Bits that fill two words are the first two words, the upper one first. -/
theorem words_append_double {size : Nat} {first : Bits} (hsize : 0 < size)
    (h : first.length = size + size) (rest : Bits) :
    words size (first ++ rest) =
      toNat first / span size :: toNat first % span size :: words size rest := by
  have hhigh : (first.take size).length = size := by simp [h]
  have hlow : (first.drop size).length = size := by simp [h]
  have happend := toNat_append (first.take size) (first.drop size)
  have hlt := toNat_lt_of_length hlow
  rw [List.take_append_drop, hlow] at happend
  have hdiv : toNat first / span size = toNat (first.take size) := by
    rw [happend, Nat.mul_comm, Nat.mul_add_div (span_pos size), Nat.div_eq_of_lt hlt, Nat.add_zero]
  have hmod : toNat first % span size = toNat (first.drop size) := by
    rw [happend, Nat.mul_comm, Nat.mul_add_mod, Nat.mod_eq_of_lt hlt]
  rw [hdiv, hmod, ← words_append hsize hlow, ← words_append hsize hhigh, ← List.append_assoc,
    List.take_append_drop]

end Bits

namespace Dialect

variable {dialect : Dialect} {p : Program} {symbols : Symbols} {levels : Nat} {text : String}
  {bits : Bits} {edits : List Edit} {parts : List Part} {words : Nat} {source : Source}

/-- A field of an operand holds the value of the operand modulo the number of its strings. -/
theorem exists_emod_of_encodesField {operand : String} {width : Nat}
    (h : dialect.EncodesField p symbols (.value operand width false false) bits) :
    ∃ n, dialect.operandValue? p symbols operand false = some n ∧
      (n % Bits.span width).toNat = Bits.toNat bits ∧ bits.length = width := by
  obtain ⟨n, hvalue, hencode⟩ := exists_value_of_encodesField (by simp) h
  refine ⟨n, hvalue, ?_, Bits.length_of_encodeField hencode⟩
  rw [← Bits.toNat_of_encodeField hencode, Int.toNat_natCast]

/-! ## The words of a line -/

/-- The number of words by which the line with the given number moves the address on. -/
def reservedAt (dialect : Dialect) (text : String) (number : Nat) : Nat :=
  ((dialect.programBefore text number).applyAll (dialect.outcomeAt text number).kept).address -
    (dialect.programBefore text number).address

/-- A line that places one instruction reserves the words of it. -/
theorem reservedAt_of_place {number : Nat} (hfault : (dialect.outcomeAt text number).fault = none)
    (hedits : (dialect.outcomeAt text number).edits = [.place parts words source]) :
    dialect.reservedAt text number = words := by
  simp [reservedAt, Outcome.kept, hfault, hedits, Program.apply]

/-- A line that is refused does not succeed. -/
theorem Yields.not_reject {fault : Fault} (h : dialect.Yields p levels text edits)
    (hne : text ≠ "") : Rule.find? dialect.rules text.toList ≠ some (.reject fault) := by
  intro hfind
  obtain ⟨source, h⟩ := h
  simp only [placeText, if_neg hne, hfind] at h
  unfold perform at h
  simp [Outcome.refused] at h

/-- A line that succeeds and places an instruction, which the symbols resolve, is assembled to
it. -/
theorem Yields.assembles (h : dialect.Yields p levels text edits)
    (hplace : .place parts words source ∈ edits) (hbits : symbols.partsBits parts = .ok bits) :
    ∃ address, dialect.Assembles p symbols levels text address bits := by
  obtain ⟨before, after, rfl⟩ := List.append_of_mem hplace
  exact ⟨_, _, before, parts, words, source, after, h, rfl, rfl, hbits⟩

end Dialect

end PocketAsm

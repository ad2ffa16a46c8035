/-
  Proofs/Parva/Computation.lean --- computations have the effect that is written.

  An operation is encoded as a code of three bits with a register of four, or,
  for multiplication and division, as a code of two bits and a register of
  three that is split around a mark; both are told apart by the mark, which is
  no register.  The second source is a register or a number (`Second`).  For
  each of the two encodings the machine finds the sources that were written
  (`computation_plain`, `computation_product`), and what it computes from them
  is the result that `Operation.result` documents, modulo the number of words.
-/
import PocketAsm.Proofs.Parva.Meaning

set_option autoImplicit false

namespace PocketAsm.Parva

open Operand Pattern Text

/-- The word of the bits carries out the statement, the values of operands given. -/
def CarriesOut (bits : Bits) (value : String → Option Int) (statement : Statement) : Prop :=
  ∀ s : State, s.WellFormed → s.memory.read s.pc = Bits.toNat bits →
    (∀ address ∈ statement.touched value s, address < deviceBase) →
    ∃ s', statement.effect? value s = some s' ∧
      step s = { s' with pc := (s.pc + 1) % wordCount, cycle := (s.cycle + 1) % wordCount }

/-- The values of operands on a program with its symbols. -/
abbrev valueIn (p : Program) (symbols : Symbols) (operand : String) : Option Int :=
  dialect.operandValue? p symbols operand false

/-! ## Second sources -/

namespace Second

/-- The second source is a number. -/
def isImmediate : Second → Bool
  | .register _ => false
  | .immediate _ => true

/-- The bit that tells registers from numbers. -/
def flag : Second → String
  | .register _ => "1"
  | .immediate _ => "0"

/-- The fields of a second source. -/
def fields (signed : Bool) : Second → List Field
  | .register name => [.register (basic name), unused]
  | .immediate operand => [.value operand 12 signed false]

theorem toNat_flag (b : Second) :
    Bits.toNat (Bits.ofText b.flag) = (if b.isImmediate then 0 else 1) ∧
      (Bits.ofText b.flag).length = 1 := by
  have hone : Bits.toNat (Bits.ofText "1") = 1 ∧ (Bits.ofText "1").length = 1 := by decide
  have hzero : Bits.toNat (Bits.ofText "0") = 0 ∧ (Bits.ofText "0").length = 1 := by decide
  cases b with
  | register name => exact hone
  | immediate operand => exact hzero

end Second

/-- The second source, unsigned. -/
def source (s : State) (f : Fields) : Nat := if f.usesImmediate then f.immediate else s.reg f.b

/-- The second source, signed if it is a number. -/
def signedSource (s : State) (f : Fields) : Int :=
  if f.usesImmediate then f.signedImmediate else s.reg f.b

section Encoded

variable {p : Program} {symbols : Symbols} {bits : Bits}

/-- A second source that is assembled as a register is one. -/
theorem isRegister_of_fields {name : String} {signed : Bool} {low : Bits}
    (h : dialect.Encodes p symbols (Second.fields signed (.register name)) low) :
    isRegister name = true := by
  obtain ⟨b, rest, -, hb, -⟩ := h
  exact isRegister_of_basic (Dialect.encodesField_register.mp hb)

/-- The machine finds the second source that is written. -/
theorem second_of_encodes {b : Second} {signed : Bool} {low : Bits}
    (h : dialect.Encodes p symbols (b.fields signed) low) :
    low.length = 12 ∧ Bits.toNat low < 4096 ∧ ∀ (s : State) (top a d : Nat),
      top % 2 = (if b.isImmediate then 0 else 1) → a < 16 → d < 8 →
      ∃ y, Statement.second? (valueIn p symbols) s signed b = some y ∧
        ((signed || !b.isImmediate) = true →
          signedSource s ⟨layout top a d (Bits.toNat low)⟩ = y) ∧
        (signed = false → (source s ⟨layout top a d (Bits.toNat low)⟩ : Int) = y) := by
  cases b with
  | register name =>
    simp only [Second.fields, unused, Dialect.encodes_cons, Dialect.encodes_nil,
      Dialect.encodesField_bits, Dialect.encodesField_register] at h
    obtain ⟨b, -, rfl, hb, -, -, rfl, rfl, rfl⟩ := h
    obtain ⟨index, hname, hlength, hnat⟩ := exists_index_of_basic hb
    have hnumber : Bits.toNat (b ++ (List.replicate 9 false ++ [])) = index.val * 512 := by
      rw [List.append_nil, toNat_unused, hnat]
    have hsmall : index.val * 512 < 4096 := by omega
    rw [hnumber]
    refine ⟨by simp [hlength], hsmall, fun s top a d htop ha hd => ⟨s.reg index, ?_, ?_⟩⟩
    · simp [Statement.second?, basicIndex?, hname, Register.index?]
    · have huses : (Fields.mk (layout top a d (index.val * 512))).usesImmediate = false := by
        rw [Fields.usesImmediate_layout ha hd hsmall, htop]
        rfl
      simp [source, signedSource, huses, Fields.b_layout index.isLt]
  | immediate operand =>
    obtain ⟨field, -, rfl, hfield, rfl⟩ := h
    rw [List.append_nil]
    obtain ⟨n, hn, hencode⟩ := Dialect.exists_value_of_encodesField (by simp) hfield
    have hlength : field.length = 12 := Bits.length_of_encodeField hencode
    have hsmall : Bits.toNat field < 4096 := Bits.toNat_lt_of_length hlength
    refine ⟨hlength, hsmall, fun s top a d htop ha hd => ⟨if signed then n else n % 4096, ?_, ?_⟩⟩
    · simp [Statement.second?, valueIn, hn]
    · have huses : (Fields.mk (layout top a d (Bits.toNat field))).usesImmediate = true := by
        rw [Fields.usesImmediate_layout ha hd hsmall, htop]
        rfl
      simp only [source, signedSource, huses, if_true, Fields.immediate_layout hsmall,
        Fields.signedImmediate_layout hsmall]
      cases signed with
      | true =>
        refine ⟨fun _ => ?_, by simp⟩
        rw [Bits.signExtend_of_encodeField (by decide) hencode, if_pos rfl]
      | false =>
        refine ⟨by simp [Second.isImmediate], fun _ => ?_⟩
        rw [Bits.toNat_of_encodeField hencode]
        rfl

end Encoded

/-! ## The arithmetic of the machine -/

theorem setReg_congr {s : State} {r : RegisterIndex} {v w : Int}
    (h : v % wordCount = w % wordCount) : s.setReg r v = s.setReg r w := by
  rw [State.setReg, State.setReg, h]

/-- A shift to the left by the whole word or more leaves nothing. -/
theorem shiftLeft_mod (x n : Nat) :
    ((if n < 24 then (x * Bits.span n : Nat) else 0 : Int)) % wordCount =
      ((x : Int) * 2 ^ n) % wordCount := by
  split
  · simp [Bits.span]
  · rename_i h
    obtain ⟨k, rfl⟩ := Nat.exists_eq_add_of_le (Nat.not_lt.mp h)
    have hcount : (wordCount : Int) = 2 ^ 24 := by decide
    rw [pow_add, hcount, mul_left_comm, Int.mul_emod_right, Int.zero_emod]

/-- A shift to the right by more than the whole word is one by the whole word. -/
theorem shiftRight_min {x : Int} (hlow : -2 ^ 24 ≤ x) (hhigh : x < 2 ^ 24) (n : Nat) :
    x / (Bits.span (min n 24) : Nat) = x / 2 ^ n := by
  rcases Nat.le_total n 24 with h | h
  · rw [Nat.min_eq_left h]
    simp [Bits.span]
  · rw [Nat.min_eq_right h]
    have hspan : ((Bits.span 24 : Nat) : Int) = 2 ^ 24 := by decide
    have hpow : (2 : Int) ^ 24 ≤ 2 ^ n := pow_le_pow_right₀ (by decide) h
    rw [hspan]
    by_cases hx : 0 ≤ x
    · rw [Int.ediv_eq_zero_of_lt hx hhigh, Int.ediv_eq_zero_of_lt hx (hhigh.trans_le hpow)]
    · have hneg {m : Int} (hm : 2 ^ 24 ≤ m) : x / m = -1 := by
        rw [Int.ediv_eq_iff_of_pos (by omega)]
        omega
      rw [hneg le_rfl, hneg hpow]

/-- The code of three bits of an operation. -/
def Operation.kind : Operation → Nat
  | .add => 0
  | .sub => 1
  | .sll => 2
  | .srl => 3
  | .sra => 4
  | .xor => 5
  | .or => 6
  | .and => 7
  | .mulu => 0
  | .mulhu => 1
  | .divu => 2
  | .remu => 3

/-- Multiplication and division, which have a code of two bits. -/
def Operation.isProduct : Operation → Bool
  | .mulu | .mulhu | .divu | .remu => true
  | _ => false

theorem twosComplement_bounds (x : Nat) :
    -2 ^ 24 ≤ twosComplement x ∧ twosComplement x < 2 ^ 24 := by
  have hcount : wordCount = 16777216 := rfl
  have hlow := Int.le_bmod (x := x) (m := wordCount) (by decide)
  have hhigh := Int.bmod_lt (x := x) (m := wordCount) (by decide)
  rw [twosComplement]
  omega

/-- The machine computes the documented result. -/
theorem compute_eq {op : Operation} (hop : op.isProduct = false) {x : Nat} (hx : x < wordCount)
    {immediate : Bool} {signedB y : Int} {b : Nat}
    (hsigned : op = .add ∨ op = .sub → signedB = y) (hb : op ≠ .add → (b : Int) = y)
    (hsub : op = .sub → immediate = false) :
    compute op.kind immediate x signedB b % wordCount = op.result x y % wordCount := by
  have htoNat (h : op ≠ .add) : y.toNat = b := by rw [← hb h, Int.toNat_natCast]
  have hword : (x : Int) < 2 ^ 24 := by exact_mod_cast hx
  cases op with
  | add => simp [compute, Operation.kind, Operation.result, hsigned]
  | sub => simp [compute, Operation.kind, Operation.result, hsigned, hsub]
  | sll =>
    simp only [compute, Operation.kind, Operation.result, htoNat (by decide)]
    exact shiftLeft_mod x b
  | srl =>
    simp only [compute, Operation.kind, Operation.result, htoNat (by decide)]
    rw [Int.natCast_ediv, shiftRight_min (by omega) hword]
  | sra =>
    simp only [compute, Operation.kind, Operation.result, htoNat (by decide), signedWord_eq]
    obtain ⟨hlow, hhigh⟩ := twosComplement_bounds x
    rw [shiftRight_min hlow hhigh]
  | xor => simp [compute, Operation.kind, Operation.result, htoNat]
  | or => simp [compute, Operation.kind, Operation.result, htoNat]
  | and => simp [compute, Operation.kind, Operation.result, htoNat]
  | _ => simp [Operation.isProduct] at hop

/-- So it does for multiplication and division. -/
theorem mulDiv_eq {op : Operation} (hop : op.isProduct = true) (x b : Nat) :
    mulDiv op.kind x b % wordCount = op.result x b % wordCount := by
  cases op with
  | mulu => simp [mulDiv, Operation.kind, Operation.result]
  | mulhu =>
    have hcount : (wordCount : Int) = 2 ^ 24 := by decide
    simp [mulDiv, Operation.kind, Operation.result, hcount]
  | divu =>
    by_cases hb : b = 0
    · simp only [mulDiv, Operation.kind, Operation.result, hb, if_true, Nat.cast_zero]
      decide
    · simp [mulDiv, Operation.kind, Operation.result, hb]
  | remu => by_cases hb : b = 0 <;> simp [mulDiv, Operation.kind, Operation.result, hb]
  | _ => simp [Operation.isProduct] at hop

/-! ## Computations field by field -/

section Layouts

variable {s : State} {top a d low : Nat}

/-- A register of four bits is none of the codes with the mark. -/
theorem computation_plain (htop : top < 16) (ha : a < 12) (hd : d < 8) (hlow : low < 4096) :
    let f : Fields := ⟨layout top a d low⟩
    computation s f = s.setReg (.ofNat d)
      (compute (top / 2) f.usesImmediate (s.single a) (signedSource s f) (source s f)) := by
  intro f
  have ha16 : a < 16 := by omega
  have hspan : Bits.span 1 = 2 ∧ Bits.span 3 = 8 := by decide
  have hfa : f.a = a := Fields.a_layout ha16 hd hlow
  have hkind : f.bits 20 3 = top / 2 := by
    rw [Fields.bits_layout ha16 hd hlow 1 3, hspan.1, hspan.2]
    omega
  have hmark : ¬ f.a / 4 = 3 := by omega
  rw [computation, if_neg hmark, hfa, hkind, Fields.d_layout hd hlow]
  rfl

/-- Behind the mark stands the second part of the first source. -/
theorem computation_product {kind lead trail flag : Nat} (hkind : kind < 4) (hlead : lead < 2)
    (hflag : flag < 2) (htrail : trail < 4) (hd : d < 8) (hlow : low < 4096) :
    let f : Fields := ⟨layout (kind * 4 + lead * 2 + flag) (12 + trail) d low⟩
    computation s f = s.setReg (.ofNat d)
      (mulDiv kind (s.reg (.ofNat (lead * 4 + trail))) (source s f)) := by
  intro f
  have ha16 : 12 + trail < 16 := by omega
  have hspan : Bits.span 1 = 2 ∧ Bits.span 2 = 4 ∧ Bits.span 15 = 32768 := by decide
  have hfa : f.a = 12 + trail := Fields.a_layout ha16 hd hlow
  have hmark : f.a / 4 = 3 := by omega
  have hbits : f.bits 21 2 = kind := by
    rw [Fields.bits_layout ha16 hd hlow 2 2, hspan.2.1]
    omega
  have hfirst : f.bits 20 1 = lead := by
    rw [Fields.bits_layout ha16 hd hlow 1 1, hspan.1]
    omega
  have hsecond : f.bits 15 2 = trail := by
    simp only [f, Fields.bits, layout, hspan.2.1, hspan.2.2]
    omega
  rw [computation, if_pos hmark, hbits, hfirst, hsecond, Fields.d_layout hd hlow]
  rfl

end Layouts

section Encoded

variable {p : Program} {symbols : Symbols} {bits : Bits} {op : Operation} {d a : String}
  {b : Second}

/-- An operation with a register of four bits as its first source carries out what is written. -/
theorem carriesOut_plain {top : Bits} {signed : Bool} (hop : op.isProduct = false)
    (hsigned : signed = decide (op = .add)) (hsub : op = .sub → b.isImmediate = false)
    (htop : Bits.toNat top = op.kind * 2 + (if b.isImmediate then 0 else 1))
    (h : dialect.Encodes p symbols
      (.bits top :: .register (single a) :: .register (basic d) :: b.fields signed) bits) :
    isRegister d = true ∧ isRegister a = true ∧
      CarriesOut bits (valueIn p symbols) (.compute op d a b) := by
  obtain ⟨x, y, low, hx, hy, hlow, hnumber⟩ := layout_of_encodes h
  obtain ⟨register, hregister, hlength₁, hbelow, hvalue⟩ := exists_register_of_single hx
  obtain ⟨index, hindex, hlength₂, hnat⟩ := exists_index_of_basic hy
  obtain ⟨hlength₃, hsmall, hsecond⟩ := second_of_encodes hlow
  refine ⟨isRegister_of_basic hy, isRegister_of_single hx, fun s hs hword _ => ?_⟩
  rw [hnumber hlength₁ hlength₂ hlength₃, hnat] at hword
  have hkind : op.kind < 8 := by cases op <;> decide
  have hflag1 : (if b.isImmediate then 0 else 1) < 2 := by split <;> decide
  have htop16 : Bits.toNat top < 16 := by omega
  have hcode : Bits.toNat top / 2 = op.kind := by omega
  have hflag : Bits.toNat top % 2 = if b.isImmediate then 0 else 1 := by omega
  obtain ⟨z, hz, hsignedz, hz'⟩ :=
    hsecond s (Bits.toNat top) (Bits.toNat x) index.val hflag (by omega) index.isLt
  have huses : (Fields.mk (layout (Bits.toNat top) (Bits.toNat x) index.val
      (Bits.toNat low))).usesImmediate = b.isImmediate := by
    rw [Fields.usesImmediate_layout (by omega) index.isLt hsmall, hflag]
    cases b.isImmediate <;> rfl
  refine ⟨s.setReg index (op.result (register.value s) z), ?_, ?_⟩
  · simp [Statement.effect?, basicIndex?, hindex, Register.index?, State.named?, hregister,
      ← hsigned, hz]
  · rw [step_computation htop16 (by omega) index.isLt hsmall hword,
      computation_plain htop16 hbelow index.isLt hsmall, ofNat_val, hcode, hvalue, huses]
    have hresult := compute_eq hop (hs.value_lt register) (fun hadd => hsignedz ?_)
      (fun hadd => hz' ?_) hsub
    · rw [setReg_congr hresult]
    · rcases hadd with hadd | hadd
      · simp [hsigned, hadd]
      · simp [hsub hadd]
    · simp [hsigned, hadd]

/-- The two parts of a code of three bits. -/
theorem toNat_parts {x : Bits} (h : x.length = 3) :
    Bits.toNat (x.take 1) * 4 + Bits.toNat (x.drop 1) = Bits.toNat x ∧
      (x.take 1).length = 1 ∧ (x.drop 1).length = 2 := by
  have hspan : Bits.span 2 = 4 := by decide
  have hdrop : (x.drop 1).length = 2 := by simp [h]
  have happend := Bits.toNat_append (x.take 1) (x.drop 1)
  rw [List.take_append_drop, hdrop, hspan] at happend
  exact ⟨happend.symm, by simp [h], hdrop⟩

/-- Multiplication and division carry out what is written. -/
theorem carriesOut_product {top : Bits} (hop : op.isProduct = true)
    (htop : Bits.toNat top = op.kind)
    (h : dialect.Encodes p symbols
      (.bits top :: .register (leading (basic a)) :: code (b.flag ++ "11") ::
        .register (trailing (basic a)) :: .register (basic d) :: b.fields false) bits) :
    isRegister d = true ∧ isRegister a = true ∧
      CarriesOut bits (valueIn p symbols) (.compute op d a b) := by
  simp only [code, Dialect.encodes_cons, Dialect.encodesField_bits, Dialect.encodesField_register]
    at h
  obtain ⟨top, rest₁, rfl, rfl, first, rest₂, rfl, hfirst, _, rest₃, rfl, rfl, second, rest₄, rfl,
    hsecond, y, low, rfl, hy, hlow⟩ := h
  obtain ⟨x, hx, rfl⟩ : ∃ x, basic a = .ok x ∧ x.take 1 = first := by
    cases hx : basic a with
    | error e => simp [leading, hx, Except.map] at hfirst
    | ok x => exact ⟨x, rfl, by simpa [leading, hx, Except.map] using hfirst⟩
  obtain rfl : x.drop 1 = second := by simpa [trailing, hx, Except.map] using hsecond
  obtain ⟨source, hsource, hlength₁, hnat₁⟩ := exists_index_of_basic hx
  obtain ⟨index, hindex, hlength₂, hnat₂⟩ := exists_index_of_basic hy
  obtain ⟨hlength₃, hsmall, hlow⟩ := second_of_encodes hlow
  obtain ⟨hparts, htake, hdrop⟩ := toNat_parts hlength₁
  obtain ⟨hflag, hflag₁⟩ := b.toNat_flag
  have hlead : Bits.toNat (x.take 1) < 2 := Bits.toNat_lt_of_length htake
  have htrail : Bits.toNat (x.drop 1) < 4 := Bits.toNat_lt_of_length hdrop
  have hkind : op.kind < 4 := by cases op <;> first | decide | simp [Operation.isProduct] at hop
  have hnumber : Bits.toNat (top ++ (x.take 1 ++ (Bits.ofText (b.flag ++ "11") ++ (x.drop 1 ++
      (y ++ low))))) =
      layout (op.kind * 4 + Bits.toNat (x.take 1) * 2 + (if b.isImmediate then 0 else 1))
        (12 + Bits.toNat (x.drop 1)) index.val (Bits.toNat low) := by
    have hspan : Bits.span 1 = 2 ∧ Bits.span 2 = 4 := by decide
    have hmark : Bits.toNat (Bits.ofText "11") = 3 := by decide
    have hgroup : top ++ (x.take 1 ++ (Bits.ofText (b.flag ++ "11") ++ (x.drop 1 ++ (y ++ low)))) =
        ((top ++ x.take 1) ++ Bits.ofText b.flag) ++
          ((Bits.ofText "11" ++ x.drop 1) ++ (y ++ low)) := by
      simp [Bits.ofText]
    rw [hgroup, toNat_layout (by rw [List.length_append, hdrop]; decide) hlength₂ hlength₃,
      Bits.toNat_append, Bits.toNat_append, Bits.toNat_append, htop, htake, hflag₁, hflag, hdrop,
      hspan.1, hspan.2, hmark, hnat₂, Nat.add_mul, Nat.mul_assoc]
  refine ⟨isRegister_of_basic hy, isRegister_of_basic hx, fun s hs hword _ => ?_⟩
  have hflag2 : (if b.isImmediate then 0 else 1) < 2 := by split <;> decide
  rw [hnumber] at hword
  obtain ⟨z, hz, -, hz'⟩ := hlow s
    (op.kind * 4 + Bits.toNat (x.take 1) * 2 + (if b.isImmediate then 0 else 1))
    (12 + Bits.toNat (x.drop 1)) index.val (by omega) (by omega) index.isLt
  refine ⟨s.setReg index (op.result (s.reg source) z), ?_, ?_⟩
  · have hadd : decide (op = .add) = false := by
      cases op <;> first | rfl | simp [Operation.isProduct] at hop
    simp [Statement.effect?, basicIndex?, hindex, Register.index?, State.named?, hsource, hadd, hz,
      Register.value]
  · rw [step_computation (by omega) (by omega) index.isLt hsmall hword,
      computation_product hkind hlead hflag2 htrail index.isLt hsmall, hparts, hnat₁, ofNat_val,
      ofNat_val, setReg_congr (mulDiv_eq hop _ _), hz' rfl]

/-- The digits of the code of an operation. -/
def Operation.digits : Operation → String
  | .add => "000"
  | .sub => "001"
  | .sll => "010"
  | .srl => "011"
  | .sra => "100"
  | .xor => "101"
  | .or => "110"
  | .and => "111"
  | .mulu => "00"
  | .mulhu => "01"
  | .divu => "10"
  | .remu => "11"

/-- The fields of an operation. -/
def Operation.fields (op : Operation) (d a : String) (b : Second) : List Field :=
  if op.isProduct then
    code "0" :: code op.digits :: .register (leading (basic a)) :: code (b.flag ++ "11") ::
      .register (trailing (basic a)) :: .register (basic d) :: b.fields false
  else if op = .sub then
    code "00011" :: .register (single a) :: .register (basic d) :: b.fields false
  else
    code "0" :: code op.digits :: code b.flag :: .register (single a) :: .register (basic d) ::
      b.fields (op = .add)

theorem Operation.toNat_digits (op : Operation) :
    Bits.toNat (Bits.ofText "0" ++ Bits.ofText op.digits) = op.kind := by
  cases op <;> decide

theorem carriesOut_of_fields (hsub : op = .sub → b.isImmediate = false)
    (h : dialect.Encodes p symbols (op.fields d a b) bits) :
    isRegister d = true ∧ isRegister a = true ∧
      CarriesOut bits (valueIn p symbols) (.compute op d a b) := by
  unfold Operation.fields at h
  split at h
  · rename_i hproduct
    exact carriesOut_product hproduct op.toNat_digits (Dialect.encodes_bits_bits.mp h)
  · rename_i hplain
    have hplain : op.isProduct = false := by simpa using hplain
    split at h
    · rename_i hop
      refine carriesOut_plain hplain (by simp [hop]) hsub ?_ h
      rw [hsub hop, hop]
      decide
    · rename_i hop
      refine carriesOut_plain hplain rfl (absurd · hop) ?_
        (Dialect.encodes_bits_bits.mp (Dialect.encodes_bits_bits.mp h))
      obtain ⟨hflag, hlength⟩ := b.toNat_flag
      rw [Bits.toNat_append, op.toNat_digits, hflag, hlength]
      rfl

end Encoded

/-! ## Lines with computations -/

/-- The mnemonics of operations and the kind of their second sources. -/
def operationForms : List (String × Operation × (String → Second)) :=
  Statement.operations.map (fun e => (e.1, e.2, .register)) ++
    Statement.immediateOperations.map (fun e => (e.1, e.2, .immediate))

/-- The rules of the operations. -/
theorem rulesFor_operation {word : String} {op : Operation} {second : String → Second}
    (h : (word, op, second) ∈ operationForms) :
    word ∈ mnemonics ∧ IsWord word ∧ (∀ b, op = .sub → (second b).isImmediate = false) ∧
      rulesFor word = [⟨three word, fun caps =>
        .emit (op.fields (caps.get .d) (caps.get .a) (second (caps.get .b))) 1 none⟩] := by
  simp only [operationForms, Statement.operations, Statement.immediateOperations, List.map_cons,
    List.map_nil, List.cons_append, List.nil_append, List.mem_cons, Prod.mk.injEq,
    List.not_mem_nil, or_false] at h
  rcases h with ⟨rfl, rfl, rfl⟩ | ⟨rfl, rfl, rfl⟩ | ⟨rfl, rfl, rfl⟩ | ⟨rfl, rfl, rfl⟩ |
    ⟨rfl, rfl, rfl⟩ | ⟨rfl, rfl, rfl⟩ | ⟨rfl, rfl, rfl⟩ | ⟨rfl, rfl, rfl⟩ | ⟨rfl, rfl, rfl⟩ |
    ⟨rfl, rfl, rfl⟩ | ⟨rfl, rfl, rfl⟩ | ⟨rfl, rfl, rfl⟩ | ⟨rfl, rfl, rfl⟩ | ⟨rfl, rfl, rfl⟩ |
    ⟨rfl, rfl, rfl⟩ | ⟨rfl, rfl, rfl⟩ | ⟨rfl, rfl, rfl⟩ | ⟨rfl, rfl, rfl⟩ | ⟨rfl, rfl, rfl⟩ |
    ⟨rfl, rfl, rfl⟩ | ⟨rfl, rfl, rfl⟩ | ⟨rfl, rfl, rfl⟩ | ⟨rfl, rfl, rfl⟩ <;>
  exact ⟨by decide, by decide, by simp [Second.isImmediate], rfl⟩

section Assembled

variable {p : Program} {symbols : Symbols} {levels : Nat} {text : String} {address : Nat}
  {bits : Bits}

/-- A line with an operation is assembled to a word that carries it out. -/
theorem carriesOut_of_operation (h : dialect.Assembles p symbols levels text address bits)
    {op : Operation} (second : String → Second)
    (hop : (folded (firstField text.toList), op, second) ∈ operationForms) :
    ∃ w d a b, fields 3 text.toList = [w, d, a, b] ∧
      CarriesOut bits (valueIn p symbols) (.compute op d a (second b)) := by
  obtain ⟨hmem, hword, hsub, hrules⟩ := rulesFor_operation hop
  obtain ⟨os, caps, hspelled, hlength, hcaps, hfind⟩ :=
    spelled_of_assembles [.d, .a, .b] h rfl hmem hword hrules
  obtain ⟨d, a, b, rfl⟩ := List.length_eq_three.mp hlength
  obtain ⟨-, hencodes⟩ := h.of_emit hfind
  simp only [hcaps] at hencodes
  obtain ⟨hd, ha, hcarries⟩ := carriesOut_of_fields (hsub _) hencodes
  have hplain : ∀ o ∈ [d, a], Plain o := by
    simp only [List.forall_mem_cons]
    exact ⟨plain_of_isRegister hd, plain_of_isRegister ha, by simp⟩
  obtain ⟨w, -, hfields⟩ := hspelled.fields_eq [d, a] hplain
  exact ⟨w, _, _, _, hfields, hcarries⟩

/-- A number in the upper half of a word, signed or not. -/
theorem upper_half_mod (n : Int) :
    Bits.signExtend n 12 * 4096 % wordCount = n % 4096 * 4096 % wordCount := by
  have hspan : Bits.span 12 = 4096 := by decide
  have hcount : wordCount = 16777216 := rfl
  simp only [Bits.signExtend, hspan, hcount]
  split <;> omega

/-- A line that loads the upper half of a word is assembled to a word that carries it out. -/
theorem carriesOut_of_loadUpper (h : dialect.Assembles p symbols levels text address bits)
    (hlui : folded (firstField text.toList) = "lui") :
    ∃ w d n, fields 2 text.toList = [w, d, n] ∧
      CarriesOut bits (valueIn p symbols) (.loadUpper d n) := by
  obtain ⟨os, caps, hspelled, hlength, hcaps, hfind⟩ :=
    spelled_of_assembles [.d, .a] h hlui (by decide) (by decide) rfl
  obtain ⟨d, n, rfl⟩ := List.length_eq_two.mp hlength
  obtain ⟨-, hencodes⟩ := h.of_emit hfind
  have hcaps_d : caps.get .d = String.ofList d := hcaps .d
  have hcaps_a : caps.get .a = String.ofList n := hcaps .a
  simp only [Operand.code, Dialect.encodes_cons, Dialect.encodes_nil, Dialect.encodesField_bits,
    Dialect.encodesField_register, hcaps_d, hcaps_a] at hencodes
  obtain ⟨_, rest₁, rfl, rfl, _, rest₂, rfl, rfl, y, rest₃, rfl, hy, low, _, rfl, hlow, rfl⟩ :=
    hencodes
  obtain ⟨value, hvalue, hencode⟩ := Dialect.exists_value_of_encodesField (by simp) hlow
  obtain ⟨index, hindex, hlength₂, hnat⟩ := exists_index_of_basic hy
  have hlow12 : low.length = 12 := Bits.length_of_encodeField hencode
  have hsmall : Bits.toNat low < 4096 := Bits.toNat_lt_of_length hlow12
  have hnumber : Bits.toNat (Bits.ofText "00010" ++ (Bits.ofText "1000" ++ (y ++ (low ++ [])))) =
      layout 2 8 index.val (Bits.toNat low) := by
    rw [List.append_nil, toNat_layout (by decide) hlength₂ hlow12, hnat]
    rfl
  have hplain : Plain d := plain_of_isRegister (isRegister_of_basic hy)
  obtain ⟨w, -, hfields⟩ := hspelled.fields_eq [d] (by simpa using hplain)
  refine ⟨w, _, _, hfields, fun s _ hword _ => ⟨s.setReg index (value % 4096 * 4096), ?_, ?_⟩⟩
  · simp [Statement.effect?, basicIndex?, hindex, Register.index?, valueIn, hvalue]
  · rw [hnumber] at hword
    have huses : (Fields.mk (layout 2 8 index.val (Bits.toNat low))).usesImmediate = true := by
      rw [Fields.usesImmediate_layout (by decide) index.isLt hsmall]
      rfl
    rw [step_computation (by decide) (by decide) index.isLt hsmall hword,
      computation_plain (by decide) (by decide) index.isLt hsmall, ofNat_val, huses]
    have hresult : compute (2 / 2) true (s.single 8)
        (signedSource s ⟨layout 2 8 index.val (Bits.toNat low)⟩)
        (Parva.source s ⟨layout 2 8 index.val (Bits.toNat low)⟩) % wordCount =
        value % 4096 * 4096 % wordCount := by
      have hspan : (Bits.span 12 : Int) = 4096 := by decide
      have hlower := Bits.toNat_of_encodeField hencode
      simp only [compute, signedSource, huses, if_true, Fields.signedImmediate_layout hsmall]
      rw [upper_half_mod, hlower, hspan, Int.emod_emod_of_dvd _ dvd_rfl]
    rw [setReg_congr hresult]

end Assembled

end PocketAsm.Parva

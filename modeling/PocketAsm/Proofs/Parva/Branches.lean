/-
  Proofs/Parva/Branches.lean --- a branch to a label goes there.

  `Branch` says what the mnemonics of branches mean: a comparison of the
  registers in the order written, or of a register with zero.  The assembler
  takes each branch to one of eight conditions, some with the registers in the
  other order and some by way of another branch, and encodes the distance of
  the label from the instruction; the machine adds the distance to the program
  counter.  `branch_reaches_label` says that the two fit together.
-/
import PocketAsm.Proofs.Parva.Decoding

set_option autoImplicit false

namespace PocketAsm.Parva

open Operand Pattern Text

/-! ## The meaning of branches -/

/-- The comparisons of the branches; those that end in `u` are unsigned. -/
inductive Comparison where
  | eq
  | ne
  | lt
  | ltu
  | ge
  | geu
  | gt
  | gtu
  | le
  | leu
  deriving DecidableEq, Repr, Inhabited

/-- Two words compare in this way. -/
def Comparison.holds (a b : Nat) : Comparison → Bool
  | .eq => a = b
  | .ne => a ≠ b
  | .lt => twosComplement a < twosComplement b
  | .ltu => a < b
  | .ge => twosComplement a ≥ twosComplement b
  | .geu => a ≥ b
  | .gt => twosComplement a > twosComplement b
  | .gtu => a > b
  | .le => twosComplement a ≤ twosComplement b
  | .leu => a ≤ b

/-- A branch, by the registers as they are written. -/
inductive Branch where
  /-- if the registers compare in this way -/
  | compare (c : Comparison) (a b : String)
  /-- if the register compares with zero in this way -/
  | compareZero (c : Comparison) (a : String)
  /-- in any case -/
  | always
  deriving DecidableEq, Repr, Inhabited

namespace Branch

/-- Whether the branch is taken in a state, if it names registers. -/
def holds? (s : State) : Branch → Option Bool
  | .compare c a b => do
    let x ← s.named? a
    let y ← s.named? b
    return c.holds x y
  | .compareZero c a => do
    let x ← s.named? a
    return c.holds x 0
  | .always => some true

/-- The mnemonics of the branches that compare registers. -/
def comparisons : List (String × Comparison) :=
  [("beq", .eq), ("bne", .ne), ("blt", .lt), ("bltu", .ltu), ("bge", .ge), ("bgeu", .geu),
   ("bgt", .gt), ("bgtu", .gtu), ("ble", .le), ("bleu", .leu)]

/-- The mnemonics of the branches that compare a register with zero. -/
def zeroComparisons : List (String × Comparison) :=
  [("beqz", .eq), ("bnez", .ne), ("bltz", .lt), ("bgez", .ge), ("bgtz", .gt), ("blez", .le)]

/-- The branch on a line, with its target as it is written. -/
def read? (line : String) : Option (Branch × String) :=
  let cs := line.toList
  let word := folded (firstField cs)
  match List.lookup word comparisons, List.lookup word zeroComparisons with
  | some c, _ =>
    match fields 3 cs with
    | [_, a, b, label] => some (.compare c a b, label)
    | _ => none
  | none, some c =>
    match fields 2 cs with
    | [_, a, label] => some (.compareZero c a, label)
    | _ => none
  | none, none =>
    match word, fields 1 cs with
    | "b", [_, label] => some (.always, label)
    | _, _ => none

end Branch

/-! ## Conditions of the machine -/

/-- The condition of a branch that compares two registers, by its code. -/
def condition (code x y : Nat) : Bool :=
  (match code / 2 with
    | 0 => x == y
    | 1 => decide (x < y)
    | _ => decide (twosComplement x < twosComplement y)) != (code % 2 == 1)

/-- The digits of the code of a comparison. -/
def Comparison.digits : Comparison → String
  | .eq => "000"
  | .ne => "001"
  | .ltu => "010"
  | .gtu => "010"
  | .geu => "011"
  | .leu => "011"
  | .lt => "100"
  | .gt => "100"
  | .ge => "101"
  | .le => "101"

/-- The comparison is encoded with its registers in the other order. -/
def Comparison.isSwapped : Comparison → Bool
  | .gt | .gtu | .le | .leu => true
  | _ => false

/-- The code of a comparison. -/
def Comparison.code : Comparison → Nat
  | .eq => 0
  | .ne => 1
  | .ltu => 2
  | .gtu => 2
  | .geu => 3
  | .leu => 3
  | .lt => 4
  | .gt => 4
  | .ge => 5
  | .le => 5

theorem Comparison.toNat_digits (c : Comparison) :
    Bits.toNat (Bits.ofText c.digits) = c.code ∧ (Bits.ofText c.digits).length = 3 ∧
      c.code < 6 := by
  cases c <;> decide

/-- The code of a comparison stands for it. -/
theorem Comparison.condition_code (c : Comparison) (x y : Nat) :
    condition c.code (if c.isSwapped then y else x) (if c.isSwapped then x else y) =
      c.holds x y := by
  rw [Bool.eq_iff_iff]
  unfold condition holds
  cases c <;> simp [code, isSwapped]

section Conditions

variable {s : State} {a d low : Nat}

theorem bits_condition {code : Nat} (hcode : code < 8) (ha : a < 16) (hd : d < 8)
    (hlow : low < 4096) : (Fields.mk (layout (24 + code) a d low)).bits 19 3 = code := by
  have hspan : Bits.span 0 = 1 ∧ Bits.span 3 = 8 := by decide
  rw [Fields.bits_layout ha hd hlow 0 3, hspan.1, hspan.2]
  omega

/-- Where a branch that compares two registers goes. -/
theorem target?_compare {code : Nat} (hcode : code < 6) (ha : a < 16) (hd : d < 8)
    (hlow : low < 4096) :
    target? s ⟨layout (24 + code) a d low⟩ =
      if condition code (s.single a) (s.reg (.ofNat d)) then
        some (s.pc + Bits.signExtend low 12) else none := by
  have h6 : ¬ (code = 6 ∧ (RegisterIndex.ofNat d).val = 4) := by omega
  have h7 : ¬ (code = 7 ∧ (RegisterIndex.ofNat d).val = 4) := by omega
  simp only [target?, bits_condition (by omega : code < 8) ha hd hlow, Fields.a_layout ha hd hlow,
    Fields.d_layout hd hlow, Fields.signedImmediate_layout hlow, if_neg h6, if_neg h7,
    signedWord_eq, condition]
  obtain hhalf | hhalf | hhalf : code / 2 = 0 ∨ code / 2 = 1 ∨ code / 2 = 2 := by omega
  · simp only [hhalf]
  · simp only [hhalf]
  · simp only [hhalf]

/-- Where a branch on the sign of a register goes. -/
theorem target?_sign {code : Nat} (hcode : code = 6 ∨ code = 7) (ha : a < 16)
    (hlow : low < 4096) :
    target? s ⟨layout (24 + code) a 0 low⟩ =
      if decide (twosComplement (s.single a) < 0) != (code % 2 == 1) then
        some (s.pc + Bits.signExtend low 12) else none := by
  have hd : (RegisterIndex.ofNat 0).val = 0 := rfl
  have hhalf : code / 2 = 3 := by omega
  simp only [target?, bits_condition (by omega : code < 8) ha (by decide : 0 < 8) hlow,
    Fields.a_layout ha (by decide : 0 < 8) hlow, Fields.d_layout (by decide : 0 < 8) hlow,
    Fields.signedImmediate_layout hlow, signedWord_eq, hd, hhalf]
  simp

end Conditions

/-! ## Branches that compare registers -/

/-- The word of the bits is a branch by the given distance, taken where the condition holds. -/
def Branches (bits : Bits) (branch : Branch) (distance : Int) : Prop :=
  ∀ s : State, s.memory.read s.pc = Bits.toNat bits →
    ∃ taken, branch.holds? s = some taken ∧
      step s = { s with
        pc := if taken then ((s.pc + distance) % wordCount).toNat else (s.pc + 1) % wordCount,
        cycle := (s.cycle + 1) % wordCount }

/-- The rules of the branches that compare registers. -/
theorem rulesFor_comparison : ∀ entry ∈ Branch.comparisons,
    entry.1 ∈ mnemonics ∧ IsWord entry.1 ∧
      rulesFor entry.1 = [branch entry.1 entry.2.digits entry.2.isSwapped] := by
  simp only [Branch.comparisons, List.forall_mem_cons]
  exact ⟨⟨by decide, by decide, rfl⟩, ⟨by decide, by decide, rfl⟩, ⟨by decide, by decide, rfl⟩,
    ⟨by decide, by decide, rfl⟩, ⟨by decide, by decide, rfl⟩, ⟨by decide, by decide, rfl⟩,
    ⟨by decide, by decide, rfl⟩, ⟨by decide, by decide, rfl⟩, ⟨by decide, by decide, rfl⟩,
    ⟨by decide, by decide, rfl⟩, by simp⟩

/-- The bits of a branch that compares registers. -/
theorem branches_of_encodes {p : Program} {symbols : Symbols} {bits : Bits} {c : Comparison}
    {a b label : String}
    (h : dialect.Encodes p symbols [code "11", code c.digits,
      .register (single (if c.isSwapped then b else a)),
      .register (basic (if c.isSwapped then a else b)), .value label 12 true true] bits) :
    isRegister a = true ∧ isRegister b = true ∧
    ∃ n, dialect.operandValue? p symbols label true = some n ∧
      Branches bits (.compare c a b) n := by
  simp only [code, Dialect.encodes_cons, Dialect.encodes_nil, Dialect.encodesField_bits,
    Dialect.encodesField_register] at h
  obtain ⟨-, rest₁, rfl, rfl, -, rest₂, rfl, rfl, first, rest₃, rfl, hfirst, second, rest₄, rfl,
    hsecond, low, -, rfl, hlow, rfl⟩ := h
  obtain ⟨n, hn, hencode⟩ := Dialect.exists_value_of_encodesField (fun _ => rfl) hlow
  obtain ⟨hcode, hdigits, hlt⟩ := c.toNat_digits
  obtain ⟨register, hregister, hlength₁, hbelow, hvalue⟩ := exists_register_of_single hfirst
  obtain ⟨index, hindex, hlength₂, hnat⟩ := exists_index_of_basic hsecond
  have hlow12 : low.length = 12 := Bits.length_of_encodeField hencode
  have hsmall : Bits.toNat low < 4096 := Bits.toNat_lt_of_length hlow12
  have hnumber : Bits.toNat (Bits.ofText "11" ++ (Bits.ofText c.digits ++ (first ++ (second ++
      (low ++ []))))) = layout (24 + c.code) (Bits.toNat first) index.val (Bits.toNat low) := by
    rw [List.append_nil, ← List.append_assoc, toNat_layout hlength₁ hlength₂ hlow12,
      Bits.toNat_append, hdigits, hcode, hnat]
    rfl
  have hregisters : isRegister a = true ∧ isRegister b = true := by
    have h₁ := isRegister_of_single hfirst
    have h₂ := isRegister_of_basic hsecond
    cases hswap : c.isSwapped <;> simp_all
  refine ⟨hregisters.1, hregisters.2, n, hn, fun s hword => ?_⟩
  rw [hnumber] at hword
  -- the values of the registers in the order of the fields
  have hnamed : (s.named? a, s.named? b) =
      (some (if c.isSwapped then s.reg index else register.value s),
        some (if c.isSwapped then register.value s else s.reg index)) := by
    cases hswap : c.isSwapped <;> simp_all [State.named?, Register.value]
  obtain ⟨hx, hy⟩ := Prod.mk.inj hnamed
  refine ⟨_, by rw [Branch.holds?, hx, hy]; rfl, ?_⟩
  rw [step_branch (by omega) (by omega) (by omega) index.isLt hsmall hword,
    target?_compare hlt (by omega) index.isLt hsmall, hvalue, ← c.condition_code,
    Bits.signExtend_of_encodeField (by decide) hencode, ofNat_val]
  have hfields : condition c.code
      (if c.isSwapped then (if c.isSwapped then register.value s else s.reg index)
        else (if c.isSwapped then s.reg index else register.value s))
      (if c.isSwapped then (if c.isSwapped then s.reg index else register.value s)
        else (if c.isSwapped then register.value s else s.reg index)) =
      condition c.code (register.value s) (s.reg index) := by
    cases c.isSwapped <;> rfl
  rw [hfields]
  cases condition c.code (register.value s) (s.reg index) with
  | true => rfl
  | false => simp only [Bool.false_eq_true, if_false, Option.getD_none, toNat_emod]

section Assembled

variable {p : Program} {symbols : Symbols} {levels : Nat} {text : String} {address : Nat}
  {bits : Bits}

/-- A line with a branch that compares registers is assembled to this branch. -/
theorem branches_of_compare (h : dialect.Assembles p symbols levels text address bits)
    {c : Comparison} (hc : (folded (firstField text.toList), c) ∈ Branch.comparisons) :
    address = p.address ∧ ∃ w a b label n, fields 3 text.toList = [w, a, b, label] ∧
      isRegister a = true ∧ isRegister b = true ∧
      dialect.operandValue? p symbols label true = some n ∧ Branches bits (.compare c a b) n := by
  obtain ⟨hmem, hword, hrules⟩ := rulesFor_comparison _ hc
  obtain ⟨os, caps, hspelled, hlength, hcaps, hfind⟩ :=
    spelled_of_assembles [.a, .d, .b] h rfl hmem hword hrules
  obtain ⟨a, b, label, rfl⟩ := List.length_eq_three.mp hlength
  obtain ⟨haddress, hencodes⟩ := h.of_emit hfind
  simp only [hcaps] at hencodes
  obtain ⟨ha, hb, n, hn, hbranches⟩ := branches_of_encodes hencodes
  have hplain : ∀ o ∈ [a, b], Plain o := by
    simp only [List.forall_mem_cons]
    exact ⟨plain_of_isRegister ha, plain_of_isRegister hb, by simp⟩
  obtain ⟨w, -, hfields⟩ := hspelled.fields_eq [a, b] hplain
  exact ⟨haddress, w, _, _, _, n, hfields, ha, hb, hn, hbranches⟩

/-! ## Branches that compare a register with zero -/

/-- The mnemonics that stand for a comparison of zero with the register, and this comparison. -/
def zeroFirst : List (String × Comparison × String × Comparison) :=
  [("beqz", .eq, "beq", .eq), ("bnez", .ne, "bne", .ne), ("bgtz", .gt, "blt", .lt),
   ("blez", .le, "bge", .ge)]

/-- The mnemonics of the branches on the sign of a register, and their codes. -/
def signBranches : List (String × Comparison × String) := [("bltz", .lt, "110"), ("bgez", .ge, "111")]

theorem rulesFor_zeroFirst {word real : String} {c c' : Comparison}
    (h : (word, c, real, c') ∈ zeroFirst) :
    word ∈ mnemonics ∧ IsWord word ∧ rulesFor word = [branchZero word real] ∧
      IsWord real ∧ (real, c') ∈ Branch.comparisons := by
  simp only [zeroFirst, List.mem_cons, Prod.mk.injEq, List.not_mem_nil, or_false] at h
  rcases h with ⟨rfl, rfl, rfl, rfl⟩ | ⟨rfl, rfl, rfl, rfl⟩ | ⟨rfl, rfl, rfl, rfl⟩ |
    ⟨rfl, rfl, rfl, rfl⟩ <;>
  exact ⟨by decide, by decide, rfl, by decide, by decide⟩

/-- A comparison of zero with a value is the other comparison of the value with zero. -/
theorem holds_zeroFirst {word real : String} {c c' : Comparison}
    (h : (word, c, real, c') ∈ zeroFirst) (x : Nat) : c'.holds 0 x = c.holds x 0 := by
  simp only [zeroFirst, List.mem_cons, Prod.mk.injEq, List.not_mem_nil, or_false] at h
  rcases h with ⟨-, rfl, -, rfl⟩ | ⟨-, rfl, -, rfl⟩ | ⟨-, rfl, -, rfl⟩ | ⟨-, rfl, -, rfl⟩ <;>
  simp [Comparison.holds, eq_comm]

theorem named?_zero (s : State) : s.named? "zero" = some 0 := by
  have hlower : Text.lower "zero" = "zero" := by decide
  rw [State.named?, Register.ofName?, hlower]
  rfl

/-- The line that compares zero first. -/
theorem toList_zeroFirst (real : String) (a b : List Char) :
    s!"{real} zero, {String.ofList a}, {String.ofList b}".toList =
      real.toList ++ (" ".toList ++ ("zero".toList ++ (", ".toList ++
        (a ++ (", ".toList ++ b))))) := by
  change (real ++ " zero, " ++ String.ofList a ++ ", " ++ String.ofList b).toList = _
  simp [String.toList_append]

/-- Its first fields are fixed and the others are those that were written. -/
theorem fields_zeroFirst {real : String} (hreal : IsWord real) {a : List Char} (ha : Solid a)
    (b : List Char) :
    fields 3 s!"{real} zero, {String.ofList a}, {String.ofList b}".toList =
      real :: "zero" :: fields 1 (a ++ (", ".toList ++ b)) := by
  have hzero : IsWord "zero" := by decide
  rw [toList_zeroFirst, hreal.fields gap_blank ((hzero.plain.solid (by decide)).append _),
    hzero.fields gap_comma (ha.append _)]

theorem branches_of_zeroFirst (h : dialect.Assembles p symbols levels text address bits)
    {c c' : Comparison} {real : String}
    (hc : (folded (firstField text.toList), c, real, c') ∈ zeroFirst) :
    address = p.address ∧ ∃ w a label n, fields 2 text.toList = [w, a, label] ∧
      dialect.operandValue? p symbols label true = some n ∧ Branches bits (.compareZero c a) n := by
  obtain ⟨hmem, hword, hrules, hreal, hreal'⟩ := rulesFor_zeroFirst hc
  obtain ⟨os, caps, hspelled, hlength, hcaps, hfind⟩ :=
    spelled_of_assembles [.a, .b] h rfl hmem hword hrules
  obtain ⟨a, label, rfl⟩ := List.length_eq_two.mp hlength
  have hcaps_a : caps.get .a = String.ofList a := hcaps .a
  have hcaps_b : caps.get .b = String.ofList label := hcaps .b
  obtain ⟨further, -, hexpanded⟩ := h.of_expand hfind
  simp only [hcaps_a, hcaps_b] at hexpanded
  have ha : Parva.operand.Accepts a [] := hspelled.accepts (by simp)
  have hlabel : Parva.operand.Accepts label [] := hspelled.accepts (by simp)
  have hfirst : folded (firstField
      s!"{real} zero, {String.ofList a}, {String.ofList label}".toList) = real := by
    rw [toList_zeroFirst, hreal.firstField gap_blank, hreal.folded]
  obtain ⟨haddress, w', z, a', label', n, hfields, hz, ha', hn, hbranches⟩ :=
    branches_of_compare hexpanded (hfirst.symm ▸ hreal')
  rw [fields_zeroFirst hreal (solid_of_operand ha)] at hfields
  obtain ⟨-, rfl, hrest⟩ : real = w' ∧ "zero" = z ∧
      fields 1 (a ++ (", ".toList ++ label)) = [a', label'] := by simpa using hfields
  -- the register that was written is the one of the line
  have hplain : Plain a := by
    refine plain_of_front_isRegister ha (", ".toList ++ label) ?_
    have hhead : firstField (a ++ (", ".toList ++ label)) = a' := (List.cons.inj hrest).1
    rw [hhead]
    exact ha'
  rw [fields_append _ hplain gap_comma (solid_of_operand hlabel)] at hrest
  obtain ⟨rfl, rfl⟩ : String.ofList a = a' ∧ String.ofList label = label' := by
    simpa [fields] using hrest
  obtain ⟨w, -, hfields⟩ := hspelled.fields_eq [a] (by simpa using hplain)
  refine ⟨haddress, w, _, _, n, hfields, hn, fun s hmemory => ?_⟩
  obtain ⟨taken, htaken, hstep⟩ := hbranches s hmemory
  refine ⟨taken, ?_, hstep⟩
  rw [← htaken, Branch.holds?, Branch.holds?, named?_zero]
  cases s.named? (String.ofList a) with
  | none => rfl
  | some x => exact congrArg some (holds_zeroFirst hc x).symm

/-- The comparisons with zero that have codes of their own go by the sign. -/
theorem rulesFor_sign {word digits : String} {c : Comparison}
    (h : (word, c, digits) ∈ signBranches) :
    word ∈ mnemonics ∧ IsWord word ∧ rulesFor word = [branchSign word digits] ∧
      ∃ n, (n = 6 ∨ n = 7) ∧ Bits.toNat (Bits.ofText digits) = n ∧
        (Bits.ofText digits).length = 3 ∧
        ∀ x, (decide (twosComplement x < 0) != (n % 2 == 1)) = c.holds x 0 := by
  have hzero : twosComplement 0 = 0 := by decide
  simp only [signBranches, List.mem_cons, Prod.mk.injEq, List.not_mem_nil, or_false] at h
  rcases h with ⟨rfl, rfl, rfl⟩ | ⟨rfl, rfl, rfl⟩
  · refine ⟨by decide, by decide, rfl, 6, Or.inl rfl, by decide, by decide, fun x => ?_⟩
    simp [Comparison.holds, hzero]
  · refine ⟨by decide, by decide, rfl, 7, Or.inr rfl, by decide, by decide, fun x => ?_⟩
    rw [Bool.eq_iff_iff]
    simp [Comparison.holds, hzero]

theorem branches_of_sign (h : dialect.Assembles p symbols levels text address bits)
    {c : Comparison} {digits : String}
    (hc : (folded (firstField text.toList), c, digits) ∈ signBranches) :
    address = p.address ∧ ∃ w a label n, fields 2 text.toList = [w, a, label] ∧
      dialect.operandValue? p symbols label true = some n ∧ Branches bits (.compareZero c a) n := by
  obtain ⟨hmem, hword, hrules, code, hcode, hdigits, hlength, hholds⟩ := rulesFor_sign hc
  obtain ⟨os, caps, hspelled, hcount, hcaps, hfind⟩ :=
    spelled_of_assembles [.a, .b] h rfl hmem hword hrules
  obtain ⟨a, label, rfl⟩ := List.length_eq_two.mp hcount
  obtain ⟨haddress, hencodes⟩ := h.of_emit hfind
  have hcaps_a : caps.get .a = String.ofList a := hcaps .a
  have hcaps_b : caps.get .b = String.ofList label := hcaps .b
  simp only [Operand.code, Dialect.encodes_cons, Dialect.encodes_nil, Dialect.encodesField_bits,
    Dialect.encodesField_register, hcaps_a, hcaps_b] at hencodes
  obtain ⟨-, rest₁, rfl, rfl, -, rest₂, rfl, rfl, first, rest₃, rfl, hfirst, -, rest₄, rfl, rfl,
    low, -, rfl, hlow, rfl⟩ := hencodes
  obtain ⟨n, hn, hencode⟩ := Dialect.exists_value_of_encodesField (fun _ => rfl) hlow
  obtain ⟨register, hregister, hlength₁, hbelow, hvalue⟩ := exists_register_of_single hfirst
  have hlow12 : low.length = 12 := Bits.length_of_encodeField hencode
  have hsmall : Bits.toNat low < 4096 := Bits.toNat_lt_of_length hlow12
  have hnumber : Bits.toNat (Bits.ofText "11" ++ (Bits.ofText digits ++ (first ++
      (Bits.ofText "000" ++ (low ++ []))))) =
      layout (24 + code) (Bits.toNat first) 0 (Bits.toNat low) := by
    rw [List.append_nil, ← List.append_assoc, toNat_layout hlength₁ (by decide) hlow12,
      Bits.toNat_append, hlength, hdigits]
    rfl
  have hplain : Plain a := plain_of_isRegister (isRegister_of_single hfirst)
  obtain ⟨w, -, hfields⟩ := hspelled.fields_eq [a] (by simpa using hplain)
  refine ⟨haddress, w, _, _, n, hfields, hn, fun s hmemory => ?_⟩
  rw [hnumber] at hmemory
  have hnamed : s.named? (String.ofList a) = some (register.value s) := by
    rw [State.named?, hregister, Option.map_some]
  refine ⟨_, by rw [Branch.holds?, hnamed]; rfl, ?_⟩
  rw [step_branch (by omega) (by omega) (by omega) (by decide) hsmall hmemory,
    target?_sign hcode (by omega) hsmall, hvalue, ← hholds,
    Bits.signExtend_of_encodeField (by decide) hencode]
  cases (decide (twosComplement (register.value s) < 0) != (code % 2 == 1)) with
  | true => rfl
  | false => simp only [Bool.false_eq_true, if_false, Option.getD_none, toNat_emod]

/-! ## The branch that is always taken -/

theorem fields_always {a : List Char} (ha : Solid a) :
    fields 3 s!"beq x0, x0, {String.ofList a}".toList = ["beq", "x0", "x0", String.ofList a] ∧
      folded (firstField s!"beq x0, x0, {String.ofList a}".toList) = "beq" := by
  have hline : s!"beq x0, x0, {String.ofList a}".toList =
      "beq".toList ++ (" ".toList ++ ("x0".toList ++ (", ".toList ++ ("x0".toList ++
        (", ".toList ++ a))))) := by
    change ("beq x0, x0, " ++ String.ofList a).toList = _
    simp [String.toList_append]
  have hbeq : IsWord "beq" := by decide
  have hx : IsWord "x0" := by decide
  have hsolid : Solid "x0".toList := hx.plain.solid (by decide)
  rw [hline, hbeq.fields gap_blank (hsolid.append _), hx.fields gap_comma (hsolid.append _),
    hx.fields gap_comma ha, hbeq.firstField gap_blank, hbeq.folded]
  exact ⟨rfl, rfl⟩

/-- A branch without condition goes by its distance, unless its target is a register. -/
theorem branches_of_always (h : dialect.Assembles p symbols levels text address bits)
    (hb : folded (firstField text.toList) = "b") :
    ∃ w label, fields 1 text.toList = [w, label] ∧
      (isRegister label = false → address = p.address ∧
        ∃ n, dialect.operandValue? p symbols label true = some n ∧ Branches bits .always n) := by
  obtain ⟨os, caps, hspelled, hcount, hcaps, hfind⟩ :=
    spelled_of_assembles [.a] h hb (by decide) (by decide) rfl
  obtain ⟨label, rfl⟩ := List.length_eq_one_iff.mp hcount
  have hcaps_a : caps.get .a = String.ofList label := hcaps .a
  obtain ⟨w, -, hfields⟩ := hspelled.fields_eq [] (by simp)
  refine ⟨w, _, hfields, fun hregister => ?_⟩
  have hsolid : Solid label := solid_of_operand (hspelled.accepts (by simp))
  simp only [branchAlways, hcaps_a, hregister, Bool.false_eq_true, if_false] at hfind
  obtain ⟨further, -, hexpanded⟩ := h.of_expand hfind
  obtain ⟨hfields, hfirst⟩ := fields_always hsolid
  obtain ⟨haddress, w', a', b', label', n, hfields', ha', -, hn, hbranches⟩ :=
    branches_of_compare (c := .eq) hexpanded (by rw [hfirst]; decide)
  rw [hfields] at hfields'
  obtain ⟨-, rfl, rfl, rfl⟩ : "beq" = w' ∧ "x0" = a' ∧ "x0" = b' ∧ String.ofList label = label' := by
    simpa using hfields'
  refine ⟨haddress, n, hn, fun s hmemory => ?_⟩
  obtain ⟨taken, htaken, hstep⟩ := hbranches s hmemory
  refine ⟨taken, ?_, hstep⟩
  have hlower : Text.lower "x0" = "x0" := by decide
  have hnamed : s.named? "x0" = some (s.reg 0) := by
    rw [State.named?, Register.ofName?, hlower]
    rfl
  rw [← htaken, Branch.holds?, Branch.holds?, hnamed]
  simp [Comparison.holds]

/-! ## Branches to labels -/

/-- A line that reads as a branch is assembled to this branch, by the distance that its target
stands for. -/
theorem branches_of_read? (h : dialect.Assembles p symbols levels text address bits)
    {branch : Branch} {label : String} (hread : Branch.read? text = some (branch, label))
    (hregister : isRegister label = false) :
    address = p.address ∧
      ∃ n, dialect.operandValue? p symbols label true = some n ∧ Branches bits branch n := by
  unfold Branch.read? at hread
  dsimp only at hread
  split at hread
  · rename_i c hlookup
    obtain ⟨haddress, w, a, b, label', n, hfields, -, -, hn, hbranches⟩ :=
      branches_of_compare h (mem_of_lookup hlookup)
    rw [hfields] at hread
    obtain ⟨rfl, rfl⟩ : Branch.compare c a b = branch ∧ label' = label := by simpa using hread
    exact ⟨haddress, n, hn, hbranches⟩
  · rename_i c _ hlookup
    have hmem : (∃ real c', (folded (firstField text.toList), c, real, c') ∈ zeroFirst) ∨
        ∃ digits, (folded (firstField text.toList), c, digits) ∈ signBranches := by
      have hmem := mem_of_lookup hlookup
      simp only [Branch.zeroComparisons, List.mem_cons, Prod.mk.injEq, List.not_mem_nil,
        or_false] at hmem
      rcases hmem with ⟨hw, rfl⟩ | ⟨hw, rfl⟩ | ⟨hw, rfl⟩ | ⟨hw, rfl⟩ | ⟨hw, rfl⟩ | ⟨hw, rfl⟩ <;>
        simp [hw, zeroFirst, signBranches]
    obtain ⟨haddress, w, a, label', n, hfields, hn, hbranches⟩ :
        address = p.address ∧ ∃ w a label n, fields 2 text.toList = [w, a, label] ∧
          dialect.operandValue? p symbols label true = some n ∧
          Branches bits (.compareZero c a) n := by
      rcases hmem with ⟨real, c', hmem⟩ | ⟨digits, hmem⟩
      · exact branches_of_zeroFirst h hmem
      · exact branches_of_sign h hmem
    rw [hfields] at hread
    obtain ⟨rfl, rfl⟩ : Branch.compareZero c a = branch ∧ label' = label := by simpa using hread
    exact ⟨haddress, n, hn, hbranches⟩
  · split at hread
    · rename_i hword hfields
      obtain ⟨w, label', hfields', hbranches⟩ := branches_of_always h hword
      rw [hfields] at hfields'
      obtain ⟨-, rfl⟩ : _ = w ∧ _ = label' := by simpa using hfields'
      obtain ⟨rfl, rfl⟩ : Branch.always = branch ∧ _ = label := by simpa using hread
      exact hbranches hregister
    · simp at hread

end Assembled

/-- Every branch to a label goes there.  Whatever else is in a text, for every instruction of the
output whose line is a branch with a label as its target, one step of the machine in a state that
holds the instruction at its program counter goes to the label if the comparison holds of the
registers in the order written, and to the next word otherwise; only the cycle counter changes
besides. -/
theorem branch_reaches_label (text : String) {address : Nat} {bits : Bits} {source : Source}
    (hline : .instruction address bits source ∈ (dialect.assemble text).lines)
    {branch : Branch} {label : String}
    (hread : Branch.read? (dialect.instructionAt text source.line) = some (branch, label))
    {target : Nat}
    (hlabel : List.lookup label (dialect.firstPass text).1.labels = some (target : Int))
    (htarget : target < wordCount) (hnumber : NumberSyntax.zeroMarked.parse? label = none)
    (hcharacter : CharLiteral.body? label = none) (hregister : isRegister label = false)
    (s : State) (hpc : s.pc = address) (hword : s.memory.read address = Bits.toNat bits) :
    ∃ taken, branch.holds? s = some taken ∧
      step s = { s with
        pc := if taken then target else (s.pc + 1) % wordCount,
        cycle := (s.cycle + 1) % wordCount } := by
  have hassembles := Dialect.assembles_of_mem_assemble wellFormed hline
  obtain ⟨haddress, n, hn, hbranches⟩ := branches_of_read? hassembles hread hregister
  rw [Dialect.operandValue?_label rfl hnumber hcharacter hlabel, if_pos rfl, Option.some.injEq,
    ← haddress] at hn
  obtain ⟨taken, htaken, hstep⟩ := hbranches s (hpc ▸ hword)
  have hnear : ((s.pc + n) % wordCount).toNat = target := by
    rw [← hn, hpc, add_sub_cancel, toNat_emod, Nat.mod_eq_of_lt htarget]
  exact ⟨taken, htaken, hnear ▸ hstep⟩

/-- A loop that counts `a0` down goes back to its label as long as `a0` is positive. -/
theorem countdown_branches_back :
    let text := "loop:\naddi a0, a0, -1\nbgtz a0, loop"
    let bits := Bits.ofNat 24 (layout 28 8 6 4095)
    let source : Source := ⟨2, "bgtz a0, loop", "bgtz a0, loop", "blt zero, a0, loop"⟩
    let s : State :=
      ⟨Memory.empty.write 1 (Bits.toNat bits), RegisterFile.cleared.set 6 3, 1, 0, .blank⟩
    .instruction 1 bits source ∈ (dialect.assemble text).lines ∧
      step s = { s with pc := 0, cycle := 1 } := by
  intro text bits source s
  obtain ⟨hline, hread, hlabel⟩ :
      .instruction 1 bits source ∈ (dialect.assemble text).lines ∧
        Branch.read? (dialect.instructionAt text source.line) =
          some (.compareZero .gt "a0", "loop") ∧
        List.lookup "loop" (dialect.firstPass text).1.labels = some ((0 : Nat) : Int) := by
    decide +kernel
  have hmemory : s.memory.read 1 = Bits.toNat bits := by
    rw [Memory.read_write, if_pos rfl]
  obtain ⟨taken, htaken, hstep⟩ := branch_reaches_label text hline hread hlabel (by decide)
    (by decide +kernel) (by decide +kernel) (by decide +kernel) s rfl hmemory
  have hholds : (Branch.compareZero .gt "a0").holds? s = some true := by decide +kernel
  obtain rfl : true = taken := Option.some.inj (hholds.symm.trans htaken)
  exact ⟨hline, hstep⟩

end PocketAsm.Parva

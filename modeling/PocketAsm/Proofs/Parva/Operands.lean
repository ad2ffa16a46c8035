/-
  Proofs/Parva/Operands.lean --- registers, operands and mnemonics of the Parva.

  `Register` is the register file as the programmer sees it: a name stands for
  a basic register or for one of the special ones, and each has a value in a
  state.  The codes that the assembler gives to names are those by which the
  machine finds the registers (`exists_register_of_single`,
  `exists_index_of_basic`).

  The rest is about lines: what an operand looks like, how the operands of a
  line are its fields, and which rules can match a line by its mnemonic.
-/
import PocketAsm.Isa.Parva.Machine
import PocketAsm.Proofs.Encoding
import PocketAsm.Proofs.Fields

set_option autoImplicit false

namespace PocketAsm.Parva

open Operand Pattern Text

/-! ## Registers -/

/-- A register as the programmer names it. -/
inductive Register where
  /-- one of the eight that hold values -/
  | basic (index : RegisterIndex)
  /-- always zero -/
  | zero
  /-- the program counter -/
  | pc
  /-- the cycle counter -/
  | cycle
  /-- the first address of the devices -/
  | upper
  deriving DecidableEq, Repr, Inhabited

namespace Register

/-- The register with a name in small letters. -/
def ofLower? : String → Option Register
  | "x0" | "ra" => some (.basic 0)
  | "x1" | "sp" => some (.basic 1)
  | "x2" | "bp" => some (.basic 2)
  | "x3" | "s0" => some (.basic 3)
  | "x4" | "t0" => some (.basic 4)
  | "x5" | "t1" => some (.basic 5)
  | "x6" | "a0" => some (.basic 6)
  | "x7" | "a1" => some (.basic 7)
  | "zero" => some .zero
  | "pc" => some .pc
  | "cycle" => some .cycle
  | "upper" => some .upper
  | _ => none

/-- The register with a name, in either case. -/
def ofName? (name : String) : Option Register := ofLower? (Text.lower name)

/-- The value of a register. -/
def value (s : State) : Register → Nat
  | .basic index => s.reg index
  | .zero => 0
  | .pc => s.pc
  | .cycle => s.cycle
  | .upper => 0xFFF000

/-- The number of a basic register. -/
def index? : Register → Option RegisterIndex
  | .basic index => some index
  | _ => none

end Register

/-- The value of the register with a name. -/
def State.named? (s : State) (name : String) : Option Nat :=
  (Register.ofName? name).map (Register.value s)

/-- The number of the basic register with a name. -/
def basicIndex? (name : String) : Option RegisterIndex :=
  (Register.ofName? name).bind Register.index?

/-- The number of the first half of a double register with a name in small letters. -/
def doubleOfLower? : String → Option RegisterIndex
  | "x01" => some 0
  | "x23" => some 2
  | "x45" => some 4
  | "x67" => some 6
  | _ => none

/-- The number of the first half of the double register with a name. -/
def doubleIndex? (name : String) : Option RegisterIndex := doubleOfLower? (Text.lower name)

variable {name : String} {bits : Bits}

theorem mem_of_lookup {α : Type} {key : String} {value : α} {table : List (String × α)}
    (h : List.lookup key table = some value) : (key, value) ∈ table := by
  obtain ⟨before, after, rfl, -⟩ := List.lookup_eq_some_iff.mp h
  simp

theorem mem_of_basic (h : basic name = .ok bits) :
    ∃ n, (Text.lower name, n) ∈ basicRegisters ∧ bits = Bits.ofNat 3 n := by
  unfold basic at h
  dsimp only at h
  split at h
  · rename_i n hlookup
    exact ⟨n, mem_of_lookup hlookup, (Except.ok.inj h).symm⟩
  · split at h
    · simp at h
    · split at h <;> simp at h

theorem mem_of_single (h : single name = .ok bits) :
    ∃ n, (Text.lower name, n) ∈ basicRegisters ++ specialRegisters ∧ bits = Bits.ofNat 4 n := by
  unfold single at h
  dsimp only at h
  split at h
  · rename_i n hlookup
    exact ⟨n, mem_of_lookup hlookup, (Except.ok.inj h).symm⟩
  · split at h <;> simp at h

theorem mem_of_double (h : double name = .ok bits) :
    ∃ n, (Text.lower name, n) ∈ doubleRegisters ∧ bits = Bits.ofNat 3 n := by
  unfold double at h
  dsimp only at h
  split at h
  · rename_i n hlookup
    exact ⟨n, mem_of_lookup hlookup, (Except.ok.inj h).symm⟩
  · split at h <;> simp at h

/-- The names of the basic registers. -/
theorem ofLower?_of_mem_basicRegisters : ∀ entry ∈ basicRegisters,
    entry.2 < 8 ∧ Register.ofLower? entry.1 = some (.basic (.ofNat entry.2)) := by
  decide

theorem val_ofNat {n : Nat} (h : n < 8) : (RegisterIndex.ofNat n).val = n := Nat.mod_eq_of_lt h

@[simp] theorem ofNat_val (index : RegisterIndex) : RegisterIndex.ofNat index.val = index :=
  Fin.ext (val_ofNat index.isLt)

/-- The code of three bits is the number of the basic register. -/
theorem exists_index_of_basic (h : basic name = .ok bits) :
    ∃ index : RegisterIndex, Register.ofName? name = some (.basic index) ∧
      bits.length = 3 ∧ Bits.toNat bits = index.val := by
  obtain ⟨n, hmem, rfl⟩ := mem_of_basic h
  obtain ⟨hlt, hname⟩ := ofLower?_of_mem_basicRegisters _ hmem
  refine ⟨_, hname, Bits.length_ofNat 3 n, ?_⟩
  rw [Bits.toNat_ofNat, val_ofNat hlt]
  exact Nat.mod_eq_of_lt hlt

/-- The code of four bits finds the value of the register; it is none of the codes that begin with
two ones. -/
theorem exists_register_of_single (h : single name = .ok bits) :
    ∃ register : Register, Register.ofName? name = some register ∧
      bits.length = 4 ∧ Bits.toNat bits < 12 ∧
      ∀ s : State, s.single (Bits.toNat bits) = register.value s := by
  obtain ⟨n, hmem, rfl⟩ := mem_of_single h
  have hlookup : n < 12 ∧ ∃ register, Register.ofName? name = some register ∧
      ∀ s : State, s.single n = register.value s := by
    rcases List.mem_append.mp hmem with hmem | hmem
    · obtain ⟨hlt, hname⟩ := ofLower?_of_mem_basicRegisters _ hmem
      refine ⟨hlt.trans (by decide), _, hname, fun s => ?_⟩
      rw [State.single, if_pos hlt]
      rfl
    · simp only [specialRegisters, List.mem_cons, Prod.mk.injEq, List.not_mem_nil, or_false] at hmem
      rcases hmem with ⟨hname, rfl⟩ | ⟨hname, rfl⟩ | ⟨hname, rfl⟩ | ⟨hname, rfl⟩
      · exact ⟨by decide, .zero, congrArg Register.ofLower? hname, fun _ => rfl⟩
      · exact ⟨by decide, .pc, congrArg Register.ofLower? hname, fun _ => rfl⟩
      · exact ⟨by decide, .cycle, congrArg Register.ofLower? hname, fun _ => rfl⟩
      · exact ⟨by decide, .upper, congrArg Register.ofLower? hname, fun _ => rfl⟩
  obtain ⟨hlt, register, hname, hvalue⟩ := hlookup
  have hcode : Bits.toNat (Bits.ofNat 4 n) = n := by
    rw [Bits.toNat_ofNat]
    exact Nat.mod_eq_of_lt (hlt.trans (by decide))
  rw [hcode]
  exact ⟨register, hname, Bits.length_ofNat 4 n, hlt, hvalue⟩

/-- The code of a double register is the number of its first half, which is even. -/
theorem exists_index_of_double (h : double name = .ok bits) :
    ∃ index : RegisterIndex, doubleIndex? name = some index ∧ index.val % 2 = 0 ∧
      bits.length = 3 ∧ Bits.toNat bits = index.val := by
  have htable : ∀ entry ∈ doubleRegisters, entry.2 < 8 ∧ entry.2 % 2 = 0 ∧
      doubleOfLower? entry.1 = some (.ofNat entry.2) := by decide
  obtain ⟨n, hmem, rfl⟩ := mem_of_double h
  obtain ⟨hlt, heven, hname⟩ := htable _ hmem
  refine ⟨_, hname, ?_, Bits.length_ofNat 3 n, ?_⟩
  · rw [val_ofNat hlt]
    exact heven
  · rw [Bits.toNat_ofNat, val_ofNat hlt]
    exact Nat.mod_eq_of_lt hlt

/-! ## Names of registers as text -/

theorem isRegister_of_mem (table : List (String × Nat))
    (htable : ∀ entry ∈ table, entry.1 ∈ registerNames) {n : Nat}
    (h : (Text.lower name, n) ∈ table) : isRegister name = true := by
  rw [isRegister, List.contains_iff_mem]
  exact htable _ h

theorem isRegister_of_basic (h : basic name = .ok bits) : isRegister name = true := by
  obtain ⟨n, hmem, -⟩ := mem_of_basic h
  exact isRegister_of_mem _ (by decide) hmem

theorem isRegister_of_single (h : single name = .ok bits) : isRegister name = true := by
  obtain ⟨n, hmem, -⟩ := mem_of_single h
  exact isRegister_of_mem _ (by decide) hmem

theorem isRegister_of_double (h : double name = .ok bits) : isRegister name = true := by
  obtain ⟨n, hmem, -⟩ := mem_of_double h
  exact isRegister_of_mem _ (by decide) hmem

/-- The name of a register in its usual spelling. -/
theorem folded_of_isRegister (h : isRegister name = true) :
    folded name = Text.lower name ∧ folded name ∈ registerNames := by
  have hascii : ∀ register ∈ registerNames, ∀ c ∈ register.toList, c.toNat < 128 := by
    have hall : registerNames.all (fun name => name.toList.all (·.toNat < 128)) = true := by decide
    simpa only [List.all_eq_true, decide_eq_true_eq] using hall
  rw [isRegister, List.contains_iff_mem] at h
  have hfold := folded_of_lower (hascii _ h) rfl
  exact ⟨hfold, hfold ▸ h⟩

/-- The name of a register consists of letters and digits. -/
theorem letters_of_isRegister (h : isRegister name = true) :
    name.toList ≠ [] ∧ ∀ c ∈ name.toList, (isLetter c || isDigit c) = true := by
  have htable : ∀ register ∈ registerNames, register.toList ≠ [] ∧
      register.toList.all (fun c => 'a' ≤ c && c ≤ 'z' || isDigit c) = true := by decide
  obtain ⟨hne, hall⟩ := htable _ (folded_of_isRegister h).2
  rw [List.all_eq_true] at hall
  rw [toList_folded] at hne hall
  refine ⟨fun hnil => hne (by rw [hnil]; rfl), fun c hc => ?_⟩
  have hfold := hall _ (List.mem_map_of_mem hc)
  rw [Bool.or_eq_true] at hfold ⊢
  rcases hfold with hletter | hdigit
  · exact Or.inl hletter
  · have hle : foldLetter c ≤ '9' := by simpa using (Bool.and_eq_true_iff.mp hdigit).2
    have hcode : (foldLetter c).toNat ≤ 57 := hle
    have hself : c = foldLetter c := eq_of_foldLetter_eq (Or.inl (by omega)) rfl
    exact Or.inr (hself ▸ hdigit)

/-! ## Operands as text -/

theorem isSeparator_of_isLetter {c : Char} (h : isLetter c = true) : isSeparator c = false := by
  obtain ⟨hlow, hhigh⟩ := Bool.and_eq_true_iff.mp h
  have hlow : 97 ≤ (foldLetter c).toNat := of_decide_eq_true hlow
  have hhigh : (foldLetter c).toNat ≤ 122 := of_decide_eq_true hhigh
  rw [← isSeparator_foldLetter]
  exact isSeparator_of_toNat (by omega) (by omega)

theorem isSeparator_of_isDigit {c : Char} (h : isDigit c = true) : isSeparator c = false := by
  obtain ⟨hlow, hhigh⟩ := Bool.and_eq_true_iff.mp h
  have hlow : 48 ≤ c.toNat := of_decide_eq_true hlow
  have hhigh : c.toNat ≤ 57 := of_decide_eq_true hhigh
  exact isSeparator_of_toNat (by omega) (by omega)

theorem isSeparator_of_isNameChar {c : Char} (h : isNameChar c = true) :
    isSeparator c = false := by
  simp only [isNameChar, Bool.or_eq_true, beq_iff_eq] at h
  rcases h with ((h | h) | rfl) | rfl
  · exact isSeparator_of_isLetter h
  · exact isSeparator_of_isDigit h
  · decide
  · decide

theorem plain_of_isRegister {cs : List Char} (h : isRegister (String.ofList cs) = true) :
    Plain cs := by
  intro c hc
  have hletter := (letters_of_isRegister h).2 c (by rwa [String.toList_ofList])
  rcases Bool.or_eq_true_iff.mp hletter with hc | hc
  · exact isSeparator_of_isLetter hc
  · exact isSeparator_of_isDigit hc

variable {cs : List Char} {ops : List (Slot × String)}

theorem accepts_minus (h : minus.Accepts cs ops) : cs = [] ∨ cs = ['-'] := by
  rcases h with h | ⟨rfl, -⟩
  · exact Or.inr (accepts_sign (by decide) (by decide) h)
  · exact Or.inl rfl

theorem not_mem_name (h : Parva.name.Accepts cs ops) : '(' ∉ cs := by
  intro hmem
  exact absurd ((accepts_oneOrMore.mp h).2.1 _ hmem) (by decide)

theorem not_mem_sign (h : sign.Accepts cs ops) : '(' ∉ cs := by
  obtain ⟨x, y, u, v, rfl, rfl, ⟨hx, rfl⟩, x', y', u', v', rfl, rfl, ⟨⟨c, rfl, hc⟩, rfl⟩, hy,
    rfl⟩ := h
  intro hmem
  rcases List.mem_append.mp hmem with hmem | hmem
  · exact absurd (hx _ hmem) (by decide)
  · rcases List.mem_cons.mp hmem with rfl | hmem
    · exact absurd hc (by decide)
    · exact absurd (hy _ hmem) (by decide)

/-- An operand is a name, or it stands in parentheses, with no others inside, or between
apostrophes. -/
theorem operand_shape (h : Parva.operand.Accepts cs ops) :
    (cs ≠ [] ∧ ∀ c ∈ cs, isNameChar c = true) ∨
      (∃ inner, cs = '(' :: (inner ++ [')']) ∧ '(' ∉ inner) ∨
      ∃ sign inner, (sign = [] ∨ sign = ['-']) ∧ cs = sign ++ '\x27' :: (inner ++ ['\x27']) := by
  rcases h with h | h | h
  · obtain ⟨hne, hall, -⟩ := accepts_oneOrMore.mp h
    exact Or.inl ⟨hne, hall⟩
  · obtain ⟨x₁, y₁, u₁, v₁, rfl, -, hopen, h₁⟩ := accepts_all_cons.mp h
    obtain ⟨x₂, y₂, u₂, v₂, rfl, -, hfirst, h₂⟩ := accepts_all_cons.mp h₁
    obtain ⟨x₃, y₃, u₃, v₃, rfl, -, hsign, h₃⟩ := accepts_all_cons.mp h₂
    obtain ⟨x₄, y₄, u₄, v₄, rfl, -, hsecond, hclose⟩ := accepts_all_cons.mp h₃
    rw [accepts_sign (by decide) (by decide) hopen, accepts_sign (by decide) (by decide) hclose]
    refine Or.inr (Or.inl ⟨x₂ ++ (x₃ ++ x₄), by simp, ?_⟩)
    simp [not_mem_name hfirst, not_mem_sign hsign, not_mem_name hsecond]
  · obtain ⟨x₁, y₁, u₁, v₁, rfl, -, hsign, h₁⟩ := accepts_all_cons.mp h
    obtain ⟨x₂, y₂, u₂, v₂, rfl, -, hopen, h₂⟩ := accepts_all_cons.mp h₁
    obtain ⟨x₃, y₃, u₃, v₃, rfl, -, -, h₃⟩ := accepts_all_cons.mp h₂
    obtain ⟨x₄, y₄, u₄, v₄, rfl, -, -, hclose⟩ := accepts_all_cons.mp h₃
    rw [accepts_sign (by decide) (by decide) hopen, accepts_sign (by decide) (by decide) hclose]
    exact Or.inr (Or.inr ⟨x₁, x₃ ++ x₄, accepts_minus hsign, by simp⟩)

/-- No operand begins with a separator. -/
theorem solid_of_operand (h : Parva.operand.Accepts cs ops) : Solid cs := by
  obtain ⟨hne, hall⟩ | ⟨inner, rfl, -⟩ | ⟨sign, inner, rfl | rfl, rfl⟩ := operand_shape h
  · exact Plain.solid (fun c hc => isSeparator_of_isNameChar (hall c hc)) hne
  · exact ⟨_, _, rfl, by decide⟩
  · exact ⟨_, _, rfl, by decide⟩
  · exact ⟨_, _, rfl, by decide⟩

/-- An operand ends with no separator. -/
theorem operand_last (h : Parva.operand.Accepts cs ops) :
    ∃ front c, cs = front ++ [c] ∧ isSeparator c = false := by
  obtain ⟨hne, hall⟩ | ⟨inner, rfl, -⟩ | ⟨sign, inner, -, rfl⟩ := operand_shape h
  · refine ⟨cs.dropLast, cs.getLast hne, (List.dropLast_append_getLast hne).symm, ?_⟩
    exact isSeparator_of_isNameChar (hall _ (List.getLast_mem hne))
  · exact ⟨'(' :: inner, ')', rfl, by decide⟩
  · exact ⟨sign ++ '\x27' :: inner, '\x27', by simp, by decide⟩

/-- An operand whose first field is the name of a register has no separators. -/
theorem plain_of_front_isRegister (h : Parva.operand.Accepts cs ops) (rest : List Char)
    (hfront : isRegister (firstField (cs ++ rest)) = true) : Plain cs := by
  -- an operand that is no name begins with a sign, and so does its first field
  have hsign {c : Char} {others : List Char} (hcs : cs = c :: others)
      (hc : isSeparator c = false) : (isLetter c || isDigit c) = true := by
    refine (letters_of_isRegister hfront).2 c ?_
    simp [firstField, hcs, hc]
  obtain ⟨-, hall⟩ | ⟨inner, hcs, -⟩ | ⟨sign, inner, rfl | rfl, hcs⟩ := operand_shape h
  · exact fun c hc => isSeparator_of_isNameChar (hall c hc)
  · exact absurd (hsign hcs (by decide)) (by decide)
  · exact absurd (hsign hcs (by decide)) (by decide)
  · exact absurd (hsign hcs (by decide)) (by decide)

/-! ## Lists of operands -/

/-- Operands in slots, with separators between them. -/
def operandList : List Slot → List Pattern
  | [] => []
  | [x] => [.slot x Parva.operand]
  | x :: xs => .slot x Parva.operand :: .separator :: operandList xs

/-- The text is the operands with gaps between them. -/
def Listed : List (List Char) → List Char → Prop
  | [], cs => cs = []
  | [o], cs => cs = o ∧ Parva.operand.Accepts o []
  | o :: os, cs =>
    ∃ gap rest, cs = o ++ (gap ++ rest) ∧ Parva.operand.Accepts o [] ∧ Gap gap ∧ Listed os rest

theorem accepts_slot_operand {x : Slot} (h : (Pattern.slot x Parva.operand).Accepts cs ops) :
    Parva.operand.Accepts cs [] ∧ ops = [(x, String.ofList cs)] := by
  obtain ⟨u, hbody, rfl⟩ := h
  obtain rfl := eq_nil_of_slotFree rfl hbody
  exact ⟨hbody, rfl⟩

theorem listed_of_accepts :
    ∀ (slots : List Slot) {cs : List Char} {ops : List (Slot × String)},
      (all (operandList slots)).Accepts cs ops →
      ∃ os, Listed os cs ∧ os.length = slots.length ∧
        ops = (slots.zip (os.map String.ofList)).reverse := by
  intro slots
  induction slots with
  | nil =>
    intro cs ops h
    obtain ⟨rfl, rfl⟩ := accepts_all_nil.mp h
    exact ⟨[], rfl, rfl, rfl⟩
  | cons x slots ih =>
    intro cs ops h
    cases slots with
    | nil =>
      obtain ⟨hoperand, rfl⟩ := accepts_slot_operand h
      exact ⟨[cs], ⟨rfl, hoperand⟩, rfl, rfl⟩
    | cons next slots =>
      obtain ⟨o, y, u, v, rfl, rfl, hslot, htail⟩ := accepts_all_cons.mp h
      obtain ⟨gap, rest, u', v', rfl, rfl, hseparator, hrest⟩ := accepts_all_cons.mp htail
      obtain ⟨hoperand, rfl⟩ := accepts_slot_operand hslot
      obtain ⟨hgap, rfl⟩ := accepts_separator hseparator
      obtain ⟨os, hlisted, hlength, rfl⟩ := ih hrest
      refine ⟨o :: os, ?_, by simp [hlength], by simp⟩
      obtain ⟨o', os, rfl⟩ := List.exists_cons_of_length_eq_add_one hlength
      exact ⟨gap, rest, rfl, hoperand, hgap, hlisted⟩

theorem Listed.solid {o : List Char} {os : List (List Char)} (h : Listed (o :: os) cs) :
    Solid cs := by
  cases os with
  | nil =>
    obtain ⟨rfl, hoperand⟩ := h
    exact solid_of_operand hoperand
  | cons next os =>
    obtain ⟨gap, rest, rfl, hoperand, -, -⟩ := h
    exact (solid_of_operand hoperand).append _

/-- Operands without separators are the fields of a list, and the last operand is what is left. -/
theorem fields_of_listed (os : List (List Char)) (last : List Char) (hos : ∀ o ∈ os, Plain o) :
    ∀ {cs : List Char}, Listed (os ++ [last]) cs →
      fields os.length cs = (os ++ [last]).map String.ofList := by
  induction os with
  | nil =>
    rintro cs ⟨rfl, -⟩
    rfl
  | cons o os ih =>
    intro cs h
    obtain ⟨next, others, hnext⟩ : ∃ next others, os ++ [last] = next :: others := by
      cases os <;> simp
    rw [List.cons_append, hnext] at h
    obtain ⟨gap, rest, rfl, -, hgap, hrest⟩ := h
    obtain ⟨ho, hos⟩ := List.forall_mem_cons.mp hos
    rw [List.length_cons, fields_append _ ho hgap hrest.solid, ih hos (hnext ▸ hrest)]
    rfl

/-! ## Lines -/

/-- The line is the mnemonic and the operands, with gaps between them. -/
def Spelled (word : String) (os : List (List Char)) (cs : List Char) : Prop :=
  ∃ w gap rest, cs = w ++ (gap ++ rest) ∧ folded (String.ofList w) = word ∧ Plain w ∧ Gap gap ∧
    Listed os rest

theorem Listed.accepts {os : List (List Char)} {o : List Char} (ho : o ∈ os) :
    ∀ {cs : List Char}, Listed os cs → Parva.operand.Accepts o [] := by
  induction os with
  | nil => simp at ho
  | cons first os ih =>
    intro cs h
    cases os with
    | nil =>
      obtain ⟨rfl, hoperand⟩ := h
      exact List.mem_singleton.mp ho ▸ hoperand
    | cons next os =>
      obtain ⟨gap, rest, -, hoperand, -, hrest⟩ := h
      rcases List.mem_cons.mp ho with rfl | ho
      · exact hoperand
      · exact ih ho hrest

theorem Spelled.accepts {word : String} {os : List (List Char)} (h : Spelled word os cs)
    {o : List Char} (ho : o ∈ os) : Parva.operand.Accepts o [] := by
  obtain ⟨w, gap, rest, -, -, -, -, hlisted⟩ := h
  exact hlisted.accepts ho

/-- A line that matches is spelled as the pattern says. -/
theorem spelled_of_match? (slots : List Slot) {word : String} {caps : Captures}
    (hword : IsWord word)
    (h : (all (.lit word :: .space :: operandList slots)).match? cs = some caps) :
    ∃ os, Spelled word os cs ∧ os.length = slots.length ∧
      ∀ slot, caps.get slot = captured (slots.zip (os.map String.ofList)).reverse slot := by
  obtain ⟨ops, haccepts, hcaps⟩ := accepts_of_match? h
  obtain ⟨w, y, u, v, rfl, rfl, hw, hy⟩ := accepts_all_cons.mp haccepts
  obtain ⟨gap, rest, u', v', rfl, rfl, hgap, hrest⟩ := accepts_all_cons.mp hy
  obtain ⟨hfold, hplain, rfl⟩ := accepts_word hword hw
  obtain ⟨hspace, rfl⟩ := accepts_space hgap
  obtain ⟨os, hlisted, hlength, rfl⟩ := listed_of_accepts slots hrest
  refine ⟨os, ⟨w, gap, rest, rfl, hfold, hplain, hspace, hlisted⟩, hlength, fun slot => ?_⟩
  rw [hcaps]
  simp

/-- The fields of a line whose operands have no separators, the last one apart. -/
theorem Spelled.fields_eq {word : String} (os : List (List Char)) {last : List Char}
    (h : Spelled word (os ++ [last]) cs) (hos : ∀ o ∈ os, Plain o) :
    ∃ w, folded w = word ∧
      fields (os.length + 1) cs = w :: (os ++ [last]).map String.ofList := by
  obtain ⟨w, gap, rest, rfl, hfold, hplain, hgap, hlisted⟩ := h
  have hsolid : Solid rest := by
    cases os with
    | nil => exact hlisted.solid
    | cons o os => exact hlisted.solid
  exact ⟨String.ofList w, hfold, by
    rw [fields_append _ hplain hgap hsolid, fields_of_listed os last hos hlisted]⟩

/-! ## Mnemonics -/

/-- The mnemonics of the rules, in their order. -/
def mnemonics : List String :=
  ["add", "addi", "sub", "lui", "sll", "slli", "srl", "srli", "sra", "srai", "xor", "xori", "or",
   "ori", "and", "andi", "mulu", "mului", "mulhu", "mulhui", "divu", "divui", "remu", "remui",
   "nop", "mv", "li", "lw", "lw", "sw", "sw", "ld", "ld", "sd", "sd", "lw", "sw", "ld", "sd",
   "push", "pop", "beq", "bltu", "blt", "bne", "bgeu", "bge", "bgt", "bgtu", "ble", "bleu",
   "beqz", "bnez", "bgtz", "blez", "bltz", "bgez", "j", "j", "b", "wfi", "call", "ret"]

/-- The rules with a mnemonic. -/
def rulesFor (word : String) : List Rule := Rule.withWord mnemonics instructions word

/-- Every rule begins with its mnemonic. -/
theorem instructions_begin : List.Forall₂ Rule.Begins mnemonics instructions := by
  repeat' first
    | exact List.Forall₂.nil
    | exact Rule.begins_spaced (by decide)
    | exact Rule.begins_alone (by decide)
    | refine List.Forall₂.cons ?_ ?_

theorem wellFormed : dialect.WellFormed 1 :=
  Architecture.wellFormed (a := Architecture.parva) (by simp [Architecture.all])

/-- The rules other than those of instructions are directives, or define labels. -/
theorem directives_of_mem : ∀ rule ∈ Directive.common Parva.operand .separator 1 ++ textDirectives,
    ∀ caps, (rule.action caps).isDirective = true ∨ ∃ name, rule.action caps = .label name := by
  simp [Directive.common, Directive.labelRule, Directive.dataRule, Directive.addressRule,
    textDirectives, Action.isDirective]

/-- A mnemonic begins with a letter. -/
theorem unpointed_of_mnemonic {text : String}
    (h : folded (firstField text.toList) ∈ mnemonics) : Unpointed text := by
  have htable : ∀ word ∈ mnemonics, Unpointed word := by decide
  have hword := htable _ h
  rw [Unpointed, toList_folded, firstField, String.toList_ofList] at hword
  cases hcs : text.toList with
  | nil => simp [hcs] at hword
  | cons c rest =>
    rw [hcs] at hword
    by_cases hc : isSeparator c = true
    · simp [hc] at hword
    · simp only [hc, List.takeWhile_cons, Bool.not_false, if_true, List.map_cons, List.head?_cons,
        Option.map_some, Option.some.injEq] at hword
      rw [Unpointed, hcs, List.head?_cons, Option.map_some, Option.some.injEq, Bool.eq_false_iff]
      intro hpoint
      -- a sign that folds onto the point would make the mnemonic begin with it
      have hfold : foldLetter c = '.' := (beq_iff_eq.mp hpoint).symm
      rw [hfold] at hword
      exact absurd hword (by decide)

/-- The rule that assembles a line with a mnemonic is one of the rules with this mnemonic. -/
theorem find?_of_assembles {p : Program} {symbols : Symbols} {levels : Nat} {text word : String}
    {address : Nat} (h : dialect.Assembles p symbols levels text address bits)
    (hword : folded (firstField text.toList) = word) (hmem : word ∈ mnemonics) :
    ∃ action, Rule.find? (rulesFor word) text.toList = some action ∧
      Rule.find? dialect.rules text.toList = some action := by
  have hrules : dialect.rules =
      instructions ++ (Directive.common Parva.operand .separator 1 ++ textDirectives) :=
    List.append_assoc _ _ _
  obtain ⟨action, hfind, hall⟩ := h.find?_eq wellFormed hrules directives_of_mem
    (unpointed_of_mnemonic (hword ▸ hmem))
  refine ⟨action, ?_, hall⟩
  rw [rulesFor, ← hword, ← Rule.find?_eq_withWord instructions_begin, hfind]

/-- A line whose mnemonic has one rule, with a list of operands, is assembled by this rule. -/
theorem spelled_of_assembles (slots : List Slot) {p : Program} {symbols : Symbols} {levels : Nat}
    {text word : String} {address : Nat} {action : Captures → Action}
    (h : dialect.Assembles p symbols levels text address bits)
    (hfirst : folded (firstField text.toList) = word) (hmem : word ∈ mnemonics)
    (hword : IsWord word)
    (hrules : rulesFor word = [⟨.all (.lit word :: .space :: operandList slots), action⟩]) :
    ∃ os caps, Spelled word os text.toList ∧ os.length = slots.length ∧
      (∀ slot, caps.get slot = captured (slots.zip (os.map String.ofList)).reverse slot) ∧
      Rule.find? dialect.rules text.toList = some (action caps) := by
  obtain ⟨found, hfind, hall⟩ := find?_of_assembles h hfirst hmem
  rw [hrules] at hfind
  obtain ⟨rule, hrule, caps, hmatch, rfl⟩ := Rule.exists_of_find? hfind
  obtain rfl := List.mem_singleton.mp hrule
  obtain ⟨os, hspelled, hlength, hcaps⟩ := spelled_of_match? slots hword hmatch
  exact ⟨os, caps, hspelled, hlength, hcaps, hall⟩

end PocketAsm.Parva

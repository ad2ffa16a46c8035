/-
  Proofs/Parva/PushPop.lean --- registers on the stack.

  `push r` is expanded into a store at the stack pointer and an addition to it,
  `pop r` into a subtraction and a load (`StackText.Fits.placesWords`), so the
  stack grows upwards.  The machine is followed through a run of such words by
  what the stack holds and what has changed besides (`Reached`): two words of a
  push hold one value more, two of a pop one less (`Reached.push`,
  `Reached.pop`), as long as the stack reaches neither the devices nor the words
  themselves.  By induction over the lines, registers that are pushed one after
  the other come back in the other order (`pushed_registers_are_popped`).
-/
import PocketAsm.Proofs.Parva.NumberLoads
import PocketAsm.Proofs.Stepping

set_option autoImplicit false

namespace PocketAsm.Parva

open Operand Pattern Text

/-! ## Loads and stores with a base -/

section Access

variable {cs : List Char} {ops : List (Slot × String)}

/-- The pattern for the names of registers accepts nothing else. -/
theorem folded_of_registerName (h : registerName.Accepts cs ops) :
    folded (String.ofList cs) ∈ registerNames ∧ Solid cs := by
  have hwords : ∀ name ∈ registerNames, IsWord name := by decide
  have hlast : registerNames.dropLast.map Pattern.lit ++ [.lit "x67"] =
      registerNames.map Pattern.lit := rfl
  obtain ⟨p, hp, haccepts⟩ := accepts_orElse.mp h
  rw [hlast] at hp
  obtain ⟨name, hname, rfl⟩ := List.mem_map.mp hp
  obtain ⟨hfolded, hplain, -⟩ := accepts_word (hwords name hname) haccepts
  refine ⟨hfolded ▸ hname, hplain.solid ?_⟩
  rintro rfl
  rw [← hfolded] at hname
  exact absurd hname (by decide)

variable {word line d b a : String} {offset : Pattern} {caps : Captures}

/-- A name before a base in parentheses, as it is written. -/
theorem captures_of_indexed (hfree : offset.slotFree = true)
    (hsolid : ∀ o, offset.Accepts o [] → Solid o) (hword : IsWord word)
    (hd : isRegister d = true) (hb : b.toList ≠ [] ∧ ∀ c ∈ b.toList, isNameChar c = true)
    (ha : ∀ c ∈ a.toList, isNameChar c = true)
    (hline : line.toList = word.toList ++ (" ".toList ++ (d.toList ++ (", ".toList ++
      (b.toList ++ '(' :: (a.toList ++ [')']))))))
    (h : (indexed word offset).match? line.toList = some caps) :
    (caps.get .d = d ∧ caps.get .a = a ∧ caps.get .b = b) ∧ offset.Accepts b.toList [] := by
  obtain ⟨t, hfits, htext, hcaps_d, hcaps_a, hcaps_b⟩ := parts_of_indexed hfree h
  obtain ⟨-, hplain, -⟩ := accepts_word hword hfits.word
  have hgap := (accepts_space hfits.gap).1
  have hcomma := (accepts_separator hfits.comma).1
  have hdPlain : Plain d.toList := plain_of_isRegister (by rwa [String.ofList_toList])
  have hdSolid : Solid d.toList := hdPlain.solid (letters_of_isRegister hd).1
  have hbSolid : Solid b.toList := solid_of_operand (operand_of_name hb.1 hb.2)
  have htSolid : Solid t.based.text := (hsolid _ hfits.based.offset).append _
  rw [hline, IndexedText.text] at htext
  obtain ⟨-, htext⟩ := append_gap_inj hword.plain hplain gap_blank hgap (hdSolid.append _)
    ((solid_of_operand hfits.target).append _) htext
  have hdPlain' : Plain t.target := by
    refine plain_of_front_isRegister hfits.target (t.comma ++ t.based.text) ?_
    rw [← htext, firstField, (takeWhile_plain_append hdPlain gap_comma _).1,
      String.ofList_toList]
    exact hd
  obtain ⟨htarget, hrest⟩ := append_gap_inj hdPlain hdPlain' gap_comma hcomma (hbSolid.append _)
    htSolid htext
  obtain ⟨hoffset, hbase⟩ := t.based.eq_of_text hfits.based hb.2 ha hrest.symm
  rw [hcaps_d, hcaps_a, hcaps_b, ← htarget, hoffset, hbase]
  simp only [String.ofList_toList, and_self, true_and]
  exact hoffset ▸ hfits.based.offset

/-- A load or store with a number before a base is assembled as it is written. -/
theorem find?_of_access {access : Access} (haccess : (word, access) ∈ Statement.accesses)
    (hd : isRegister d = true) (hb : b.toList ≠ [] ∧ ∀ c ∈ b.toList, isNameChar c = true)
    (hnumber : folded b ∉ registerNames)
    (ha : a.toList ≠ [] ∧ ∀ c ∈ a.toList, isNameChar c = true)
    (hline : line.toList = word.toList ++ (" ".toList ++ (d.toList ++ (", ".toList ++
      (b.toList ++ '(' :: (a.toList ++ [')'])))))) :
    Rule.find? dialect.rules line.toList =
      some (.emit (access.fields d a (.immediate b)) 1 none) := by
  obtain ⟨-, hword, hrules⟩ := rulesFor_access haccess
  have hregister : (indexed word registerName).match? line.toList = none := by
    by_contra hsome
    obtain ⟨caps, hmatch⟩ := Option.ne_none_iff_exists'.mp hsome
    obtain ⟨-, hname⟩ := captures_of_indexed rfl (fun o ho => (folded_of_registerName ho).2) hword
      hd hb ha.2 hline hmatch
    obtain ⟨hmem, -⟩ := folded_of_registerName hname
    rw [String.ofList_toList] at hmem
    exact hnumber hmem
  obtain ⟨ops, haccepts⟩ := accepts_indexed_line (operand_of_name hb.1 hb.2)
    (operand_of_name ha.1 ha.2) (operand_of_isRegister hd) hline
  obtain ⟨caps, hmatch⟩ := Option.isSome_iff_exists.mp (match?_isSome haccepts)
  obtain ⟨⟨hcaps_d, hcaps_a, hcaps_b⟩, -⟩ := captures_of_indexed rfl
    (fun o ho => solid_of_operand ho) hword hd hb ha.2 hline hmatch
  have hfirst : folded (firstField line.toList) = word := by
    rw [hline, hword.firstField gap_blank, hword.folded]
  refine find?_of_rulesFor hfirst ?_
  rw [hrules]
  refine (Rule.find?_of_no_match hregister _).trans ((Rule.find?_of_match hmatch _).trans ?_)
  change some (Action.emit (access.fields (caps.get .d) (caps.get .a) (.immediate (caps.get .b))) 1
    none) = _
  rw [hcaps_d, hcaps_a, hcaps_b]

/-- A load or store of a word with a literal number before a base is placed as one word. -/
theorem placesWords_of_access {access : Access} {index : RegisterIndex} {base : Nat} {n : Int}
    (haccess : (word, access) ∈ Statement.accesses) (hsingle : access.isDouble = false)
    (hd : basicIndex? d = some index)
    (hb : NumberSyntax.zeroMarked.read b = .ok (some n)) (hn : -2048 ≤ n ∧ n < 2048)
    (hnumber : folded b ∉ registerNames)
    (ha : single a = .ok (Bits.ofNat 4 base)) (hbase : base < 16)
    (hline : line.toList = word.toList ++ (" ".toList ++ (d.toList ++ (", ".toList ++
      (b.toList ++ '(' :: (a.toList ++ [')']))))))
    (levels : Nat) (source : Source) (p : Program) :
    PlacesWords (dialect.placeText levels source line p)
      [layout ((8 + access.kind) * 2) base index.val (n % 4096).toNat] := by
  have hbasic := basic_of_basicIndex? hd
  have hfind := find?_of_access haccess (isRegister_of_basic hbasic)
    (NumberSyntax.name_of_parse? (NumberSyntax.read_eq_some.mp hb).2) hnumber
    (name_of_isRegister (isRegister_of_single ha)) hline
  have hne : line ≠ "" := by
    rintro rfl
    simp at hline
  refine placesWords_of_emit hne hfind (fun symbols => ?_) levels source
  have hhalf : (Bits.span (12 - 1) : Int) = 2048 := by decide
  have hlow := Bits.encodeField_signed n 12 (by rwa [hhalf])
  have hdestination : access.destination d = .ok (Bits.ofNat 3 index.val) := by
    cases access with
    | lw | sw => exact hbasic
    | ld | sd => simp [Access.isDouble] at hsingle
  have hlength : (Bits.ofText "10" ++ Bits.ofText access.digits ++ Bits.ofText "0").length = 5 := by
    cases access <;> rfl
  have hflag : Bits.toNat (Bits.ofText "10" ++ Bits.ofText access.digits ++ Bits.ofText "0") =
      (8 + access.kind) * 2 := by
    rw [Bits.toNat_append, access.toNat_digits]
    rfl
  obtain ⟨bits, hencodes, hbits, hnat⟩ := exists_word_of_fields hlength (Bits.length_ofNat 4 base)
    (Bits.length_ofNat 3 index.val) (Dialect.encodesField_register.mpr ha)
    (Dialect.encodesField_register.mpr hdestination) hb hlow
  refine ⟨bits, Dialect.encodes_bits_bits.mpr (Dialect.encodes_bits_bits.mpr hencodes), hbits, ?_⟩
  have hx : Bits.toNat (Bits.ofNat 4 base) = base := toNat_ofNat_of_lt hbase
  have hy : Bits.toNat (Bits.ofNat 3 index.val) = index.val := toNat_ofNat_of_lt index.isLt
  rw [hnat, hflag, hx, hy]

end Access

/-! ## Lines that push and pop -/

/-- A line that puts a register on the stack, or takes one off it. -/
inductive StackLine where
  | push (index : RegisterIndex)
  | pop (index : RegisterIndex)
  deriving DecidableEq, Repr, Inhabited

namespace StackLine

/-- The mnemonic of the line. -/
def mnemonic : StackLine → String
  | .push _ => "push"
  | .pop _ => "pop"

/-- The register on the line. -/
def register : StackLine → RegisterIndex
  | .push index => index
  | .pop index => index

/-- The lines that the line is expanded into, with a name of its register. -/
def expansion (name : String) : StackLine → List String
  | .push _ => [s!"sw {name}, 0(sp)", "addi sp, sp, 1"]
  | .pop _ => ["addi sp, sp, -1", s!"lw {name}, 0(sp)"]

/-- The words of the line. -/
def codes : StackLine → List Nat
  | .push index => [layout 18 1 index.val 0, layout 0 1 1 1]
  | .pop index => [layout 0 1 1 4095, layout 16 1 index.val 0]

@[simp] theorem length_codes (line : StackLine) : line.codes.length = 2 := by
  cases line <;> rfl

end StackLine

/-- A line that pushes or pops, in its parts. -/
structure StackText where
  mnemonic : List Char
  gap : List Char
  register : List Char

namespace StackText

/-- The line as a whole. -/
def text (t : StackText) : List Char := t.mnemonic ++ (t.gap ++ t.register)

/-- The line is written with its mnemonic and some name of its register, in either case. -/
structure Fits (t : StackText) (line : StackLine) : Prop where
  mnemonic : folded (String.ofList t.mnemonic) = line.mnemonic
  gap : t.gap ≠ [] ∧ ∀ c ∈ t.gap, isBlank c = true
  register : basicIndex? (String.ofList t.register) = some line.register

end StackText

section Expansion

variable {name : String} {index : RegisterIndex}

theorem single_pointer : single "sp" = .ok (Bits.ofNat 4 1) := rfl

/-- A load or store at the stack pointer is placed as one word. -/
theorem placesWords_at_pointer {word : String} {access : Access}
    (haccess : (word, access) ∈ Statement.accesses) (hsingle : access.isDouble = false)
    (hd : basicIndex? name = some index) (levels : Nat) (source : Source) (p : Program) :
    PlacesWords (dialect.placeText levels source s!"{word} {name}, 0(sp)" p)
      [layout ((8 + access.kind) * 2) 1 index.val 0] := by
  have hline : s!"{word} {name}, 0(sp)".toList = word.toList ++ (" ".toList ++
      (name.toList ++ (", ".toList ++ ("0".toList ++ '(' :: ("sp".toList ++ [')']))))) := by
    change (word ++ " " ++ name ++ ", 0(sp)").toList = _
    simp [String.toList_append]
  have hzero : NumberSyntax.zeroMarked.read "0" = .ok (some 0) := by decide +kernel
  exact placesWords_of_access haccess hsingle hd hzero (by decide) (by decide) single_pointer
    (by decide) hline levels source p

/-- A line that moves the stack pointer is placed as one word. -/
theorem placesWords_of_move {amount : String} {n : Int}
    (hread : NumberSyntax.zeroMarked.read amount = .ok (some n)) (hn : -2048 ≤ n ∧ n < 2048)
    (levels : Nat) (source : Source) (p : Program) :
    PlacesWords (dialect.placeText levels source s!"addi sp, sp, {amount}" p)
      [layout 0 1 1 (n % 4096).toNat] := by
  have hline : s!"addi sp, sp, {amount}".toList = "addi".toList ++ (" ".toList ++
      ("sp".toList ++ (", ".toList ++ ("sp".toList ++ (", ".toList ++ amount.toList))))) := by
    change ("addi sp, sp, " ++ amount).toList = _
    simp [String.toList_append]
  have hop : ("addi", Operation.add, Second.immediate) ∈ operationForms := by
    simp [operationForms, Statement.operations, Statement.immediateOperations]
  have hpointer : basicIndex? "sp" = some 1 := by decide
  have hhalf : (Bits.span (12 - 1) : Int) = 2048 := by decide
  have hlow := Bits.encodeField_signed n 12 (by rwa [hhalf])
  exact placesWords_of_operation hop rfl (by decide) hline hpointer single_pointer (by decide)
    (accepts_written "sp" (by decide)) hread hlow levels source p

variable {t : StackText} {line : StackLine}

theorem StackText.Fits.find? (h : t.Fits line) :
    Rule.find? dialect.rules t.text =
      some (.expand (line.expansion (String.ofList t.register))) := by
  have hoperand := operand_of_basicIndex? h.register
  rw [String.toList_ofList] at hoperand
  have hgap : space.Accepts t.gap [] := accepts_oneOrMore.mpr ⟨h.gap.1, h.gap.2, rfl⟩
  have hwritten : Written [t.register] t.register := ⟨rfl, hoperand⟩
  have hfind (word : String) {action : Captures → Action} (hword : IsWord word)
      (hmnemonic : folded (String.ofList t.mnemonic) = word)
      (hrules : rulesFor word = [⟨one word .a, action⟩]) :
      ∃ caps, Rule.find? dialect.rules t.text = some (action caps) ∧
        caps.get .a = String.ofList t.register := by
    obtain ⟨caps, hfind, hcaps⟩ := find?_of_written [.a] hword hrules hmnemonic hgap hwritten rfl
      (by simp)
    exact ⟨caps, hfind, hcaps .a⟩
  cases line with
  | push index =>
    obtain ⟨caps, hfind, hcaps⟩ := hfind "push" (by decide) h.mnemonic rfl
    rw [hfind, ← hcaps]
    rfl
  | pop index =>
    obtain ⟨caps, hfind, hcaps⟩ := hfind "pop" (by decide) h.mnemonic rfl
    rw [hfind, ← hcaps]
    rfl

theorem StackText.Fits.text_ne (h : t.Fits line) : String.ofList t.text ≠ "" := by
  intro hempty
  have htext : t.text = [] := by
    rw [← String.toList_ofList (l := t.text), hempty]
    rfl
  have hgap : t.gap = [] := (List.append_eq_nil_iff.mp (List.append_eq_nil_iff.mp htext).2).1
  exact h.gap.1 hgap

/-- A line that pushes or pops is placed as its two words. -/
theorem StackText.Fits.placesWords (h : t.Fits line) {raw : String}
    (hraw : dialect.instructionOf raw = String.ofList t.text) (number : Nat) (p : Program) :
    PlacesWords (dialect.placeLine number raw p) line.codes := by
  have hfind := h.find?
  rw [← String.toList_ofList (l := t.text)] at hfind
  rw [Dialect.placeLine, hraw]
  refine placesWords_of_expand h.text_ne hfind ?_ p
  have hread : NumberSyntax.zeroMarked.read "1" = .ok (some 1) ∧
      NumberSyntax.zeroMarked.read "-1" = .ok (some (-1)) := by decide +kernel
  have haccess : ("sw", Access.sw) ∈ Statement.accesses ∧ ("lw", .lw) ∈ Statement.accesses := by
    decide
  cases line with
  | push index =>
    exact .cons (placesWords_at_pointer haccess.1 rfl h.register _ _)
      (.cons (placesWords_of_move hread.1 (by decide) _ _) .nil)
  | pop index =>
    exact .cons (placesWords_of_move hread.2 (by decide) _ _)
      (.cons (placesWords_at_pointer haccess.2 rfl h.register _ _) .nil)

end Expansion

/-! ## One word after the other -/

section Steps

variable {s : State} {index : RegisterIndex}

/-- The word of a load or store at the stack pointer. -/
theorem step_at_pointer {access : Access} (hsingle : access.isDouble = false)
    (hpointer : s.reg 1 < deviceBase)
    (hword : s.memory.read s.pc = layout ((8 + access.kind) * 2) 1 index.val 0) :
    step s = { access.perform s index (s.reg 1) with
      pc := (s.pc + 1) % wordCount, cycle := (s.cycle + 1) % wordCount } := by
  have hkind : access.kind < 4 := by cases access <;> decide
  have huses : (Fields.mk (layout ((8 + access.kind) * 2) 1 index.val 0)).usesImmediate = true := by
    rw [Fields.usesImmediate_layout (by decide) index.isLt (by decide), Nat.mul_mod_left]
    rfl
  have hzero : Bits.signExtend ((0 : Nat) : Int) 12 = 0 := by decide
  have hbase : deviceBase < wordCount := by decide
  have haddress : ((s.single 1 +
      signedSource s ⟨layout ((8 + access.kind) * 2) 1 index.val 0⟩) % wordCount).toNat =
      s.reg 1 := by
    have hregister : s.single 1 = s.reg 1 := rfl
    rw [signedSource, if_pos huses, Fields.signedImmediate_layout (by decide), hzero, hregister,
      Int.add_zero, toNat_emod, Nat.mod_eq_of_lt (hpointer.trans hbase)]
  have heven : access.isDouble = true → index.val % 2 = 0 := by simp [hsingle]
  have htransfer : transfer s ⟨layout ((8 + access.kind) * 2) 1 index.val 0⟩ =
      access.perform s index (s.reg 1) :=
    (transfer_layout (by decide : 0 < 2) (by decide : 1 < 16) (by decide : 0 < 4096) heven
      (haddress.trans_lt hpointer)).trans (congrArg (access.perform s index) haddress)
  rw [step_transfer (by omega) (by omega) (by decide) index.isLt (by decide) hword, htransfer]

/-- The word of `sw r, 0(sp)` stores the register at the stack pointer. -/
theorem step_store (hpointer : s.reg 1 < deviceBase)
    (hword : s.memory.read s.pc = layout 18 1 index.val 0) :
    step s = { s with
      memory := s.memory.write (s.reg 1) (s.reg index)
      pc := (s.pc + 1) % wordCount, cycle := (s.cycle + 1) % wordCount } :=
  have hword : s.memory.read s.pc = layout ((8 + Access.sw.kind) * 2) 1 index.val 0 := hword
  step_at_pointer rfl hpointer hword

/-- The word of `lw r, 0(sp)` loads the register from the stack pointer. -/
theorem step_load (hpointer : s.reg 1 < deviceBase)
    (hword : s.memory.read s.pc = layout 16 1 index.val 0) :
    step s = { s.setReg index (s.memory.read (s.reg 1)) with
      pc := (s.pc + 1) % wordCount, cycle := (s.cycle + 1) % wordCount } :=
  have hword : s.memory.read s.pc = layout ((8 + Access.lw.kind) * 2) 1 index.val 0 := hword
  step_at_pointer rfl hpointer hword

/-- The words that move the stack pointer by one. -/
theorem step_move {low : Nat} (hlow : low < 4096)
    (hword : s.memory.read s.pc = layout 0 1 1 low) :
    Loaded s (step s) 1 (s.reg 1 + Bits.signExtend low 12) 1 := by
  have hload : Loaded s (step s) 1 (compute (0 / 2) true (s.single 1) (Bits.signExtend low 12) low)
      1 := loaded_step (by decide) rfl (by decide) hlow hword
  have hvalue : compute (0 / 2) true (s.single 1) (Bits.signExtend low 12) low =
      s.reg 1 + Bits.signExtend low 12 := rfl
  rwa [hvalue] at hload

end Steps

/-! ## Runs -/

/-- A run has come so many words from a state: above its old top the stack holds these values, the
latest one last, and apart from the registers only the places of the stack have changed. -/
structure Reached (before : State) (limit k : Nat) (values : List Nat) (s : State) : Prop where
  pc : s.pc = (before.pc + k) % wordCount
  pointer : s.reg 1 = before.reg 1 + values.length
  values : ∀ i v, values[i]? = some v → s.memory.read ((before.reg 1 + i : Nat) : Int) = v
  memory : ∀ a : Int, (∀ i < limit, a ≠ (before.reg 1 + i : Nat)) →
    s.memory.read a = before.memory.read a
  display : s.display = before.display

/-- The words stand in memory from the given one on, and not where the stack grows. -/
def Stored (before : State) (limit k : Nat) (codes : List Nat) : Prop :=
  ∀ i code, codes[i]? = some code →
    before.memory.read (((before.pc + k + i) % wordCount : Nat) : Int) = code ∧
      ∀ j < limit, (before.pc + k + i) % wordCount ≠ before.reg 1 + j

section Runs

variable {before s : State} {limit k code v low : Nat} {values codes others : List Nat}
  {index : RegisterIndex}

/-- What holds of all values and of one more holds of them together. -/
theorem forall_concat {P : Nat → Nat → Prop} (h : ∀ i w, values[i]? = some w → P i w)
    (hv : P values.length v) : ∀ i w, (values ++ [v])[i]? = some w → P i w := by
  intro i w hw
  have hi : i < values.length + 1 := by simpa using (List.getElem?_eq_some_iff.mp hw).1
  rcases Nat.lt_succ_iff_lt_or_eq.mp hi with hlt | rfl
  · exact h i w (by rwa [List.getElem?_append_left hlt] at hw)
  · obtain rfl : v = w := by simpa using hw
    exact hv

theorem Stored.append (h : Stored before limit k (codes ++ others)) :
    Stored before limit k codes ∧ Stored before limit (k + codes.length) others := by
  refine ⟨fun i code hcode => h i code ?_, fun i code hcode => ?_⟩
  · rwa [List.getElem?_append_left (List.getElem?_eq_some_iff.mp hcode).1]
  · have hshift := h (codes.length + i) code
      (by rwa [List.getElem?_append_right (by omega), Nat.add_sub_cancel_left])
    rwa [← Nat.add_assoc, Nat.add_assoc before.pc] at hshift

/-- The next word is still the one that was stored. -/
theorem Reached.fetch (h : Reached before limit k values s)
    (hcode : Stored before limit k (code :: codes)) : s.memory.read s.pc = code := by
  obtain ⟨hread, hapart⟩ : before.memory.read (((before.pc + k) % wordCount : Nat) : Int) = code ∧
      ∀ j < limit, (before.pc + k) % wordCount ≠ before.reg 1 + j := hcode 0 code rfl
  rw [h.pc, h.memory _ fun i hi heq => hapart i hi (Int.natCast_inj.mp heq)]
  exact hread

theorem Reached.store (h : Reached before limit k values s)
    (hdevice : ∀ i < limit, before.reg 1 + i < deviceBase) (hlength : values.length < limit)
    (hword : s.memory.read s.pc = layout 18 1 index.val 0) :
    Reached before limit (k + 1) values (step s) ∧
      (step s).memory.read ((before.reg 1 + values.length : Nat) : Int) = s.reg index ∧
      ∀ q, (step s).reg q = s.reg q := by
  have hpointer : s.reg 1 < deviceBase := h.pointer ▸ hdevice _ hlength
  have hstep := step_store hpointer hword
  have hread (a : Int) : (step s).memory.read a =
      if ((before.reg 1 + values.length : Nat) : Int) = a then s.reg index
      else s.memory.read a := by
    rw [hstep, ← h.pointer]
    exact Memory.read_write _ _ _ _
  refine ⟨⟨?_, ?_, fun i v hv => ?_, fun a ha => ?_, ?_⟩, ?_, fun q => by rw [hstep]; rfl⟩
  · have hpc : (step s).pc = (s.pc + 1) % wordCount := by rw [hstep]
    rw [hpc, h.pc, Nat.mod_add_mod, Nat.add_assoc]
  · rw [hstep]
    exact h.pointer
  · have hi := (List.getElem?_eq_some_iff.mp hv).1
    rw [hread, if_neg (by omega), h.values i v hv]
  · rw [hread, if_neg (ha _ hlength).symm, h.memory a ha]
  · rw [hstep]
    exact h.display
  · rw [hread, if_pos rfl]

theorem Reached.move (h : Reached before limit k values s) (hlow : low < 4096)
    (hword : s.memory.read s.pc = layout 0 1 1 low) (after : List Nat)
    (hafter : (after.length : Int) = values.length + Bits.signExtend low 12)
    (hbelow : before.reg 1 + after.length < wordCount)
    (hvalues : ∀ i v, after[i]? = some v →
      s.memory.read ((before.reg 1 + i : Nat) : Int) = v) :
    Reached before limit (k + 1) after (step s) ∧ ∀ q, q ≠ 1 → (step s).reg q = s.reg q := by
  have hmove := step_move hlow hword
  refine ⟨⟨?_, ?_, fun i v hv => ?_, fun a ha => ?_, ?_⟩, hmove.others⟩
  · rw [hmove.pc, h.pc, Nat.mod_add_mod, Nat.add_assoc]
  · have hsum : ((before.reg 1 + values.length : Nat) : Int) + Bits.signExtend low 12 =
        (before.reg 1 + after.length : Nat) := by omega
    rw [hmove.register, h.pointer, hsum, toNat_emod, Nat.mod_eq_of_lt hbelow]
  · rw [hmove.memory, hvalues i v hv]
  · rw [hmove.memory, h.memory a ha]
  · rw [hmove.display, h.display]

theorem Reached.load (h : Reached before limit k values s) (hindex : index ≠ 1)
    (hpointer : s.reg 1 < deviceBase)
    (hword : s.memory.read s.pc = layout 16 1 index.val 0) :
    Reached before limit (k + 1) values (step s) ∧
      (step s).reg index = s.memory.read (s.reg 1) % wordCount ∧
      ∀ q, q ≠ index → (step s).reg q = s.reg q := by
  have hstep := step_load hpointer hword
  have hother : ∀ q, q ≠ index → (step s).reg q = s.reg q := by
    intro q hq
    rw [hstep]
    exact (RegisterFile.get_set _ _ _ _).trans (if_neg hq.symm)
  have hmemory : (step s).memory = s.memory := by
    rw [hstep]
    rfl
  refine ⟨⟨?_, ?_, fun i v hv => ?_, fun a ha => ?_, ?_⟩, ?_, hother⟩
  · have hpc : (step s).pc = (s.pc + 1) % wordCount := by rw [hstep]
    rw [hpc, h.pc, Nat.mod_add_mod, Nat.add_assoc]
  · rw [hother 1 hindex.symm, h.pointer]
  · rw [hmemory, h.values i v hv]
  · rw [hmemory, h.memory a ha]
  · rw [hstep]
    exact h.display
  · rw [hstep]
    exact reg_setReg_self _ _ _

/-- The next word is still the one that was stored, and so are the others. -/
theorem Stored.tail (h : Stored before limit k (code :: codes)) :
    Stored before limit (k + 1) codes :=
  have h : Stored before limit k ([code] ++ codes) := h
  h.append.2

/-- The words of a push put the register on the stack. -/
theorem Reached.push (h : Reached before limit k values s)
    (hdevice : ∀ i < limit, before.reg 1 + i < deviceBase) (hlength : values.length < limit)
    (hcodes : Stored before limit k (StackLine.push index).codes) :
    Reached before limit (k + 2) (values ++ [s.reg index]) (step^[2] s) ∧
      ∀ q, q ≠ 1 → (step^[2] s).reg q = s.reg q := by
  obtain ⟨hstored, htop, hsame⟩ := h.store hdevice hlength (h.fetch hcodes)
  have hup : Bits.signExtend ((1 : Nat) : Int) 12 = 1 := by decide
  have hlonger : ((values ++ [s.reg index]).length : Int) =
      values.length + Bits.signExtend ((1 : Nat) : Int) 12 := by
    rw [hup, List.length_append]
    rfl
  have hbelow : before.reg 1 + (values ++ [s.reg index]).length < wordCount := by
    have hbase : deviceBase < wordCount := by decide
    have hroom := hdevice _ hlength
    rw [List.length_append, List.length_singleton]
    omega
  obtain ⟨hmoved, hkept⟩ := hstored.move (by decide) (hstored.fetch hcodes.tail) _ hlonger hbelow
    (forall_concat hstored.values htop)
  exact ⟨hmoved, fun q hq => (hkept q hq).trans (hsame q)⟩

/-- The words of a pop take the latest value off the stack. -/
theorem Reached.pop (h : Reached before limit k (values ++ [v]) s)
    (hdevice : ∀ i < limit, before.reg 1 + i < deviceBase) (hlength : values.length < limit)
    (hindex : index ≠ 1) (hv : v < wordCount)
    (hcodes : Stored before limit k (StackLine.pop index).codes) :
    Reached before limit (k + 2) values (step^[2] s) ∧ (step^[2] s).reg index = v ∧
      ∀ q, q ≠ 1 → q ≠ index → (step^[2] s).reg q = s.reg q := by
  have hdown : Bits.signExtend ((4095 : Nat) : Int) 12 = -1 := by decide
  have hshorter : (values.length : Int) =
      (values ++ [v]).length + Bits.signExtend ((4095 : Nat) : Int) 12 := by
    rw [hdown, List.length_append, List.length_singleton]
    omega
  have hroom := hdevice _ hlength
  have hbase : deviceBase < wordCount := by decide
  have hvalues : ∀ i w, values[i]? = some w →
      s.memory.read ((before.reg 1 + i : Nat) : Int) = w := by
    intro i w hw
    refine h.values i w ?_
    rwa [List.getElem?_append_left (List.getElem?_eq_some_iff.mp hw).1]
  obtain ⟨hmoved, hkept⟩ := h.move (by decide) (h.fetch hcodes) _ hshorter (hroom.trans hbase)
    hvalues
  have hmemory : (step s).memory = s.memory := (step_move (by decide) (h.fetch hcodes)).memory
  have hpointer : (step s).reg 1 < deviceBase := hmoved.pointer ▸ hroom
  obtain ⟨hloaded, hregister, hsame⟩ :=
    hmoved.load hindex hpointer (hmoved.fetch hcodes.tail)
  refine ⟨hloaded, ?_, fun q hq hne => (hsame q hne).trans (hkept q hq)⟩
  have htop := h.values values.length v (by simp)
  have hread : (step^[2] s).reg index = s.memory.read ((step s).reg 1) % wordCount := by
    rw [← hmemory]
    exact hregister
  rw [hread, hmoved.pointer, htop, Nat.mod_eq_of_lt hv]

/-- Lines that push, one after the other, put their registers on the stack. -/
theorem Reached.pushes (hdevice : ∀ i < limit, before.reg 1 + i < deviceBase)
    (pushes : List RegisterIndex) :
    ∀ {k : Nat} {values : List Nat} {s : State}, (∀ r ∈ pushes, r ≠ 1) →
      values.length + pushes.length ≤ limit → Reached before limit k values s →
      Stored before limit k (pushes.flatMap fun r => (StackLine.push r).codes) →
      Reached before limit (k + 2 * pushes.length) (values ++ pushes.map s.reg)
          (step^[2 * pushes.length] s) ∧
        ∀ q, q ≠ 1 → (step^[2 * pushes.length] s).reg q = s.reg q := by
  induction pushes with
  | nil =>
    intro k values s _ _ h _
    rw [List.map_nil, List.append_nil]
    exact ⟨h, fun q _ => rfl⟩
  | cons r pushes ih =>
    intro k values s hpushes hlength h hcodes
    obtain ⟨-, hrest⟩ := List.forall_mem_cons.mp hpushes
    rw [List.length_cons] at hlength
    rw [List.flatMap_cons] at hcodes
    obtain ⟨hpushed, hsame⟩ := h.push hdevice (by omega) hcodes.append.1
    obtain ⟨hreached, hkept⟩ := ih hrest (by rw [List.length_append, List.length_singleton]; omega)
      hpushed hcodes.append.2
    have hvalues : pushes.map (step^[2] s).reg = pushes.map s.reg :=
      List.map_congr_left fun q hq => hsame q (hrest q hq)
    rw [hvalues, List.append_assoc, List.singleton_append, ← List.map_cons,
      ← Function.iterate_add_apply] at hreached
    simp only [← Function.iterate_add_apply] at hkept
    have hcount : k + 2 + 2 * pushes.length = k + 2 * (r :: pushes).length := by
      rw [List.length_cons]
      omega
    exact ⟨hcount ▸ hreached, fun q hq => (hkept q hq).trans (hsame q hq)⟩

/-- Lines that pop, one after the other, take the values off the stack, the latest one first; the
last line with a register counts. -/
theorem Reached.pops (hdevice : ∀ i < limit, before.reg 1 + i < deviceBase)
    (pops : List RegisterIndex) :
    ∀ {k : Nat} {values : List Nat} {s : State}, (∀ r ∈ pops, r ≠ 1) →
      values.length = pops.length → pops.length ≤ limit → (∀ v ∈ values, v < wordCount) →
      Reached before limit k values s →
      Stored before limit k (pops.flatMap fun r => (StackLine.pop r).codes) →
      Reached before limit (k + 2 * pops.length) [] (step^[2 * pops.length] s) ∧
        (∀ (i : Nat) q, pops[i]? = some q → q ∉ pops.drop (i + 1) →
          values.reverse[i]? = some ((step^[2 * pops.length] s).reg q)) ∧
        ∀ q, q ≠ 1 → q ∉ pops → (step^[2 * pops.length] s).reg q = s.reg q := by
  induction pops with
  | nil =>
    intro k values s _ hlength _ _ h _
    obtain rfl := List.length_eq_zero_iff.mp hlength
    exact ⟨h, fun i q hq => by simp at hq, fun q _ _ => rfl⟩
  | cons r pops ih =>
    intro k values s hpops hlength hlimit hvalues h hcodes
    obtain ⟨hr, hrest⟩ := List.forall_mem_cons.mp hpops
    rw [List.flatMap_cons] at hcodes
    obtain ⟨values, v, rfl⟩ : ∃ others v, values = others ++ [v] :=
      List.eq_nil_or_concat' values |>.resolve_left (by rintro rfl; simp at hlength)
    have hlength : values.length = pops.length := by simpa using hlength
    rw [List.length_cons] at hlimit
    obtain ⟨hvalues, hv⟩ := List.forall_mem_append.mp hvalues
    have hv : v < wordCount := hv v (List.mem_singleton_self v)
    obtain ⟨hpopped, hvalue, hsame⟩ := h.pop hdevice (by omega) hr hv hcodes.append.1
    obtain ⟨hreached, hmirrored, hkept⟩ :=
      ih hrest hlength (by omega) hvalues hpopped hcodes.append.2
    simp only [← Function.iterate_add_apply] at hreached hmirrored hkept
    have hcount : k + 2 + 2 * pops.length = k + 2 * (r :: pops).length := by
      rw [List.length_cons]
      omega
    refine ⟨hcount ▸ hreached, fun i q hq hlast => ?_, fun q hq hnot => ?_⟩
    · rw [List.reverse_append, List.reverse_singleton, List.singleton_append]
      cases i with
      | zero =>
        obtain rfl : r = q := by simpa using hq
        exact congrArg some ((hkept r hr hlast).trans hvalue).symm
      | succ i => exact hmirrored i q hq hlast
    · rw [List.mem_cons, not_or] at hnot
      obtain ⟨hne, hnot⟩ := hnot
      exact (hkept q hq hnot).trans (hsame q hq hne)

end Runs

/-! ## Texts with such lines -/

section Texts

variable {text : String} {number : Nat}

theorem address_applyAll_places (places : List (List Part × Source)) (p : Program) :
    (p.applyAll (places.map fun place => .place place.1 1 place.2)).address =
      p.address + places.length := by
  induction places generalizing p with
  | nil => rfl
  | cons place places ih =>
    refine (ih (p.apply (.place place.1 1 place.2))).trans ?_
    simp only [Program.apply, List.length_cons]
    omega

/-- The address moves on by the words of a line. -/
theorem address_after {codes : List Nat} (h : PlacesWords (dialect.outcomeAt text number) codes) :
    (dialect.programBefore text (number + 1)).address =
      (dialect.programBefore text number).address + codes.length := by
  obtain ⟨places, houtcome, hcodes⟩ := h
  have hkept : (dialect.outcomeAt text number).kept =
      places.map fun place => .place place.1 1 place.2 := by
    rw [kept_of_fault (by rw [houtcome]), houtcome]
  rw [Dialect.programBefore_succ wellFormed, hkept, ← hcodes.length_eq, address_applyAll_places]

/-- The lines push some registers and pop others. -/
def stackLines (pushes pops : List RegisterIndex) : List StackLine :=
  pushes.map .push ++ pops.map .pop

/-- The lines of a text from the given number on are these. -/
def Writes (text : String) (number : Nat) (lines : List StackLine) : Prop :=
  ∀ i line, lines[i]? = some line → ∃ t : StackText,
    dialect.instructionAt text (number + i) = String.ofList t.text ∧ t.Fits line

theorem Writes.placesWords {lines : List StackLine} (h : Writes text number lines) {i : Nat}
    {line : StackLine} (hline : lines[i]? = some line) :
    PlacesWords (dialect.outcomeAt text (number + i)) line.codes := by
  obtain ⟨t, htext, hfits⟩ := h i line hline
  exact hfits.placesWords htext (number + i) _

/-- Every line takes two words. -/
theorem Writes.address {lines : List StackLine} (h : Writes text number lines) {i : Nat}
    (hi : i ≤ lines.length) :
    (dialect.programBefore text (number + i)).address =
      (dialect.programBefore text number).address + 2 * i := by
  induction i with
  | zero => rfl
  | succ i ih =>
    have hplaces := h.placesWords (List.getElem?_eq_getElem hi)
    rw [← Nat.add_assoc, address_after hplaces, ih (Nat.le_of_succ_le hi), StackLine.length_codes,
      Nat.mul_add, Nat.add_assoc]

theorem length_flatMap_codes (lines : List StackLine) :
    (lines.flatMap StackLine.codes).length = 2 * lines.length := by
  simp [List.length_flatMap, Nat.mul_comm]

/-- Registers that are pushed, one after the other, come back in the other order.  A line
`push r` or `pop r` takes two words, which are not reported and stand one behind the other, line
after line, unless the lines are left out.  Executing the words, wherever they stand one after the
other, in a well-formed state whose stack has room below the devices and apart from the words, puts
into each popped register what the register at the mirrored place held, where the last line that
pops a register counts; the stack pointer is where it was, other registers keep their values, and
memory changes only in the room on the stack. -/
theorem pushed_registers_are_popped {pushes pops : List RegisterIndex}
    (hlength : pops.length = pushes.length) (hpushes : ∀ r ∈ pushes, r ≠ 1)
    (hpops : ∀ r ∈ pops, r ≠ 1) (hlines : Writes text number (stackLines pushes pops)) :
    let n := pushes.length
    let codes := (stackLines pushes pops).flatMap StackLine.codes
    codes.length = 4 * n ∧
    (∀ i line, (stackLines pushes pops)[i]? = some line →
      PlacesWords (dialect.outcomeAt text (number + i)) line.codes ∧
      (∀ d ∈ (dialect.assemble text).errors, d.line ≠ number + i) ∧
      (wordsAt text (number + i) = [] ∨
        wordsAt text (number + i) = line.codes.mapIdx fun j code =>
          ((((dialect.programBefore text number).address + 2 * i + j : Nat) : Int), code))) ∧
    ∀ s : State, s.WellFormed → (∀ i < n, s.reg 1 + i < 0xFFF000) →
      (∀ i code, codes[i]? = some code →
        s.memory.read (((s.pc + i) % wordCount : Nat) : Int) = code ∧
          ∀ j < n, (s.pc + i) % wordCount ≠ s.reg 1 + j) →
      let s' := step^[4 * n] s
      (∀ (i : Nat) r q, pops[i]? = some q → q ∉ pops.drop (i + 1) →
        pushes.reverse[i]? = some r → s'.reg q = s.reg r) ∧
      s'.reg 1 = s.reg 1 ∧ (∀ q ∉ pops, s'.reg q = s.reg q) ∧
      (∀ a : Int, (∀ i < n, a ≠ (s.reg 1 + i : Nat)) → s'.memory.read a = s.memory.read a) ∧
      s'.display = s.display ∧ s'.pc = (s.pc + 4 * n) % wordCount := by
  intro n codes
  have hcount : (stackLines pushes pops).length = 2 * n := by
    rw [stackLines, List.length_append, List.length_map, List.length_map, hlength]
    omega
  refine ⟨?_, fun i line hline => ?_, fun s hs hdevice hmemory => ?_⟩
  · rw [length_flatMap_codes, hcount]
    omega
  · have hplaces := hlines.placesWords hline
    obtain ⟨hsilent, hwords⟩ := wordsAt_of_placesWords hplaces
    have hi := (List.getElem?_eq_some_iff.mp hline).1
    rw [hlines.address hi.le] at hwords
    exact ⟨hplaces, hsilent, hwords⟩
  · have hstored : Stored s n 0 (pushes.flatMap (fun r => (StackLine.push r).codes) ++
        pops.flatMap fun r => (StackLine.pop r).codes) := by
      simpa [Stored, codes, stackLines, List.flatMap_map] using hmemory
    have hstart : Reached s n 0 [] s :=
      ⟨by rw [Nat.add_zero, Nat.mod_eq_of_lt hs.pc], rfl, fun i v hv => by simp at hv,
        fun _ _ => rfl, rfl⟩
    obtain ⟨hpushCodes, hpopCodes⟩ := hstored.append
    have hpushLength : (pushes.flatMap fun r => (StackLine.push r).codes).length =
        2 * pushes.length := by simp [List.length_flatMap, Nat.mul_comm]
    rw [hpushLength] at hpopCodes
    obtain ⟨hfull, hsame⟩ :=
      Reached.pushes hdevice pushes hpushes (by simp [n]) hstart hpushCodes
    have hvalues : ∀ v ∈ pushes.map s.reg, v < wordCount :=
      List.forall_mem_map.mpr fun r _ => hs.registers r
    obtain ⟨hempty, hmirrored, hkept⟩ := Reached.pops hdevice pops hpops (by simp [hlength])
      hlength.le hvalues hfull hpopCodes
    have hsteps : 2 * pops.length + 2 * pushes.length = 4 * n := by omega
    simp only [← Function.iterate_add_apply, hsteps] at hempty hmirrored hkept
    have hpointer : (step^[4 * n] s).reg 1 = s.reg 1 := hempty.pointer
    refine ⟨fun i r q hq hlast hr => ?_, hpointer, fun q hq => ?_, hempty.memory, hempty.display,
      ?_⟩
    · have hvalue := hmirrored i q hq hlast
      rw [← List.map_reverse, List.getElem?_map, hr] at hvalue
      exact (Option.some.inj hvalue).symm
    · by_cases hne : q = 1
      · rw [hne, hpointer]
      · rw [hkept q hne hq, hsame q hne]
    · rw [hempty.pc]
      congr 1
      omega

/-- Two registers change places by way of the stack. -/
theorem registers_are_swapped :
    let text := "start:\nPUSH a0\n push  X3 ; the other one\npop A0\npop s0"
    let words := ((stackLines [6, 3] [6, 3]).flatMap StackLine.codes).mapIdx
      fun i code => ((i : Int), code)
    let s : State := ⟨Memory.empty.writeAll words,
      ((RegisterFile.cleared.set 1 8).set 6 7).set 3 9, 0, 0, .blank⟩
    [1, 2, 3, 4].flatMap (wordsAt text) = words ∧ (step^[8] s).reg 6 = 9 ∧
      (step^[8] s).reg 3 = 7 ∧ (step^[8] s).reg 1 = 8 ∧ (step^[8] s).pc = 8 := by
  intro text words s
  let first : StackText := ⟨"PUSH".toList, [' '], "a0".toList⟩
  let second : StackText := ⟨"push".toList, [' ', ' '], "X3".toList⟩
  let third : StackText := ⟨"pop".toList, [' '], "A0".toList⟩
  let fourth : StackText := ⟨"pop".toList, [' '], "s0".toList⟩
  obtain ⟨hfirst, hsecond, hthird, hfourth, hwords⟩ :
      dialect.instructionAt text 1 = String.ofList first.text ∧
        dialect.instructionAt text 2 = String.ofList second.text ∧
        dialect.instructionAt text 3 = String.ofList third.text ∧
        dialect.instructionAt text 4 = String.ofList fourth.text ∧
        [1, 2, 3, 4].flatMap (wordsAt text) = words := by
    decide +kernel
  have hlines : Writes text 1 (stackLines [6, 3] [6, 3]) := by
    intro i line hline
    match i with
    | 0 =>
      obtain rfl := Option.some.inj hline
      exact ⟨first, hfirst, by decide, ⟨by decide, List.all_eq_true.mp rfl⟩, by decide⟩
    | 1 =>
      obtain rfl := Option.some.inj hline
      exact ⟨second, hsecond, by decide, ⟨by decide, List.all_eq_true.mp rfl⟩, by decide⟩
    | 2 =>
      obtain rfl := Option.some.inj hline
      exact ⟨third, hthird, by decide, ⟨by decide, List.all_eq_true.mp rfl⟩, by decide⟩
    | 3 =>
      obtain rfl := Option.some.inj hline
      exact ⟨fourth, hfourth, by decide, ⟨by decide, List.all_eq_true.mp rfl⟩, by decide⟩
    | i + 4 => simp [stackLines] at hline
  have hs : s.WellFormed :=
    ⟨by decide, Memory.read_lt (by decide) (Memory.forall_writeAll_empty (by decide)), by decide,
      by decide⟩
  have hread : ∀ i < 8, ∀ code ∈ ((stackLines [6, 3] [6, 3]).flatMap StackLine.codes)[i]?,
      s.memory.read (((s.pc + i) % wordCount : Nat) : Int) = code ∧
        ∀ j < 2, (s.pc + i) % wordCount ≠ s.reg 1 + j := by decide +kernel
  have hmemory : ∀ i code, ((stackLines [6, 3] [6, 3]).flatMap StackLine.codes)[i]? = some code →
      s.memory.read (((s.pc + i) % wordCount : Nat) : Int) = code ∧
        ∀ j < 2, (s.pc + i) % wordCount ≠ s.reg 1 + j :=
    fun i code hcode => hread i (List.getElem?_eq_some_iff.mp hcode).1 code hcode
  obtain ⟨-, -, hrun⟩ := pushed_registers_are_popped rfl (by decide) (by decide) hlines
  obtain ⟨hpopped, hpointer, -, -, -, hpc⟩ := hrun s hs (by decide) hmemory
  exact ⟨hwords, hpopped 0 3 6 rfl (by decide) rfl, hpopped 1 6 3 rfl (by decide) rfl,
    hpointer, hpc⟩

end Texts

end PocketAsm.Parva

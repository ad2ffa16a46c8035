/-
  Proofs/Lodestar/Rules.lean --- the rules of the Lodestar follow the reading of the V8.

  What a line of the V8 says can be read without its rules
  (`V8.Statement.read?`).  A rule of the Lodestar follows this reading if it
  emits the bytes of what is read, wherever the V8 could resolve that
  (`Follows`).  The rules stand in another order and take their operands in
  other shapes, but each of them follows in its place
  (`instructions_follow`), with one exception: a `jmp` with a bare operand
  (`isBareJump`) goes through memory on the Lodestar.
-/
import PocketAsm.Proofs.Lodestar.Operands

set_option autoImplicit false

namespace PocketAsm.Lodestar

open Bits Operand Pattern Text
open V8 (Statement Op IsTransfer HasGroup valueOf)

/-- The line is a `jmp` whose operand has neither parentheses nor the mark of immediate data. -/
def isBareJump (line : String) : Bool :=
  match tokens line.toList with
  | [mnemonic, operand] =>
    folded mnemonic == "jmp" && operand.toList.head? != some '(' && operand.toList.head? != some '#'
  | _ => false

/-! ## Operands on a line -/

section Operands

variable {o : List Char} {u : List (Slot × String)}

theorem Spelled.exists_cons (h : Spelled o) : ∃ c rest, o = c :: rest ∧ c ≠ '(' ∧ c ≠ '#' := by
  obtain ⟨c, rest, rfl⟩ := List.exists_cons_of_ne_nil h.ne_nil
  have hne {d : Char} (hd : isAtomChar d = false) : c ≠ d := by
    rintro rfl
    exact h.not_mem hd List.mem_cons_self
  exact ⟨c, rest, rfl, hne (by decide), hne (by decide)⟩

/-- An operand behind the mark of immediate data is one token. -/
theorem Spelled.whole_marked (h : Spelled o) : Whole ('#' :: o) :=
  Whole.append (whole_of_plain (x := ['#']) (by simp [Plain, isSeparator, isBlank]) (by decide))
    h.whole

theorem Spelled.whole_parenthesized (h : Spelled o) : Whole ('(' :: (o ++ [')'])) :=
  Text.whole_parenthesized (h.not_mem (by decide))

theorem parenthesized?_eq_none {token : String} {c : Char} {rest : List Char}
    (htoken : token.toList = c :: rest) (hc : c ≠ '(') : Statement.parenthesized? token = none := by
  unfold Statement.parenthesized?
  split
  · rename_i others hothers
    exact absurd (List.cons.inj (htoken.symm.trans hothers)).1 hc
  · rfl

theorem Spelled.parenthesized? (h : Spelled o) :
    Statement.parenthesized? (String.ofList o) = none := by
  obtain ⟨c, rest, rfl, hc, -⟩ := h.exists_cons
  exact parenthesized?_eq_none String.toList_ofList hc

theorem Spelled.marked? (h : Spelled o) : Operand.marked? (String.ofList o) = none := by
  obtain ⟨c, rest, rfl, -, hc⟩ := h.exists_cons
  unfold Operand.marked?
  rw [String.toList_ofList]
  split
  · rename_i others hothers
    exact absurd (List.cons.inj hothers).1 hc
  · rfl

theorem accepts_absolute (h : (slot .a absolute).Accepts o u) :
    Spelled o ∧ u = [(.a, String.ofList o)] := by
  obtain ⟨habsolute, rfl⟩ := accepts_slot rfl h
  exact ⟨spelled_of_absolute habsolute, rfl⟩

theorem accepts_indirect (h : indirect.Accepts o u) :
    ∃ inner, o = '(' :: (inner ++ [')']) ∧ Spelled inner ∧ u = [(.a, String.ofList inner)] := by
  obtain ⟨x, y, v, v', rfl, rfl, hopen, hy⟩ := accepts_all_cons.mp h
  obtain ⟨inner, z, v'', v''', rfl, rfl, hinner, hclose⟩ := accepts_all_cons.mp hy
  obtain ⟨-, rfl⟩ := accepts_letter.mp hopen
  obtain ⟨-, rfl⟩ := accepts_letter.mp hclose
  obtain rfl := accepts_sign (by decide) (by decide) hopen
  obtain rfl := accepts_sign (by decide) (by decide) hclose
  obtain ⟨hspelled, rfl⟩ := accepts_absolute hinner
  exact ⟨inner, rfl, hspelled, by simp⟩

/-- An immediate operand is a number behind the mark, or a name. -/
theorem accepts_immediate (h : immediate.Accepts o u) :
    (∃ rest, o = '#' :: rest ∧ number.Accepts rest [] ∧ u = [(.a, String.ofList rest)]) ∨
      (label.Accepts o [] ∧ u = [(.a, String.ofList o)]) := by
  rcases h with ⟨x, y, v, v', rfl, rfl, hmark, hslot⟩ | h
  · obtain ⟨hnumber, rfl⟩ := accepts_slot rfl hslot
    obtain ⟨-, rfl⟩ := accepts_letter.mp hmark
    obtain rfl := accepts_sign (by decide) (by decide) hmark
    exact Or.inl ⟨y, rfl, hnumber, by simp⟩
  · exact Or.inr (accepts_slot rfl h)

end Operands

/-! ## Following -/

/-- The operand of a statement has a value on the V8. -/
def Valued (p : Program) (labels : SymbolTable) (statement : Statement) : Prop :=
  ∀ text, statement.operand? = some text → ∃ n, valueOf p ⟨.dollar, labels, []⟩ text = some n

/-- Where what is read has its operand, the action emits its bytes. -/
def Follows (read : Option Statement) : Action → Prop
  | .emit fields count _ =>
    ∀ p q labels labels' bits statement, Native p labels →
      V8.dialect.Encodes p ⟨.dollar, labels, []⟩ fields bits → read = some statement →
      Native q labels' → Valued q labels' statement →
        count = statement.op.size ∧
          statement.CodedAs (valueOf p ⟨.dollar, labels, []⟩) (words 8 bits)
  | _ => False

/-- The rule follows the reading of every line that it decides behind the earlier ones. -/
abbrev FollowsAfter (earlier : List Rule) (rule : Rule) : Prop :=
  Rule.SoundAfter (fun cs action => isBareJump (String.ofList cs) = false →
    Follows (Statement.read? (String.ofList cs)) action) earlier rule

/-- Every rule of a table follows in its place. -/
abbrev FollowsEach (earlier rules : List Rule) : Prop :=
  Rule.SoundEach (fun cs action => isBareJump (String.ofList cs) = false →
    Follows (Statement.read? (String.ofList cs)) action) earlier rules

theorem follows_of_agrees {read : Option Statement} {action : Action}
    (h : V8.Agrees read action) : Follows read action := by
  cases action with
  | emit fields count mark =>
    intro p q labels labels' bits statement _ hencodes hread _ _
    obtain ⟨found, hfound, hcount, hcoded⟩ := h p _ bits hencodes
    obtain rfl := Option.some.inj (hread.symm.trans hfound)
    exact ⟨hcount, hcoded⟩
  | _ => exact h

section Rules

variable {earlier : List Rule} {mnemonic opcode word : String}

/-- A rule that the V8 has too. -/
theorem follows_of_reads {rule : Rule} (h : V8.Reads earlier rule) : FollowsAfter earlier rule :=
  fun cs caps hmatch hearlier _ => follows_of_agrees (h cs caps hmatch hearlier)

/-- The languages have the same registers. -/
theorem registerBits_eq_ok {name : String} {bits : Bits} :
    registerBits name = .ok bits ↔ V8.registerBits name = .ok bits := by
  unfold registerBits V8.registerBits
  cases V8.registerCode? name <;> simp

theorem encodes_register {p : Program} {symbols : Symbols} {first : Bits} {name : String}
    {fields : List Field} {bits : Bits} :
    V8.dialect.Encodes p symbols (.bits first :: .register (registerBits name) :: fields) bits ↔
      V8.dialect.Encodes p symbols (.bits first :: .register (V8.registerBits name) :: fields)
        bits := by
  simp [registerBits_eq_ok]

/-- An operation on a register. -/
theorem follows_onRegister {operands : Pattern}
    (h : V8.Reads earlier (V8.onRegister operands mnemonic opcode)) :
    FollowsAfter earlier (onRegister operands mnemonic opcode) := by
  intro cs caps hmatch hearlier _
  refine follows_of_agrees fun p symbols bits hencodes => ?_
  exact h cs caps hmatch hearlier p symbols bits (encodes_register.mp hencodes)

theorem jump?_of_parenthesized? {token : String} (h : Statement.parenthesized? token = none) :
    Statement.jump? mnemonic token =
      (List.lookup mnemonic Statement.jumps).map fun op => ⟨op, some token⟩ := by
  unfold Statement.jump?
  split
  · rename_i htext
    rw [h] at htext
    cases htext
  · rfl

/-- A jump.  The V8 has no mark in the operand of a jump, and nothing with the mark has a value. -/
theorem follows_jump {op : Op} (hmnemonic : IsMnemonic mnemonic)
    (hjump : ∀ token, Statement.ofOne? mnemonic token = Statement.jump? mnemonic token)
    (h : List.lookup mnemonic Statement.jumps = some op)
    (hlength : (ofText opcode).length = 8) (hcode : toNat (ofText opcode) = op.code)
    (hop : op.takesOperand = true) : FollowsAfter earlier (V8.jump immediate mnemonic opcode) := by
  intro cs caps hmatch _ _ p q labels labels' bits statement _ hencodes hread hnative hvalued
  obtain ⟨ops, haccepts, hcaps⟩ := accepts_of_match? hmatch
  obtain ⟨w, gap, o, rfl, hw, hgap, ho⟩ := accepts_spaced.mp haccepts
  obtain ⟨hfold, hatom, hne⟩ := hmnemonic.accepts hw
  have hstatement (hwhole : Whole o) (hone : o ≠ [])
      (hbare : Statement.parenthesized? (String.ofList o) = none) :
      statement = ⟨op, some (String.ofList o)⟩ := by
    rw [V8.read?_of_operand hatom hne (accepts_space hgap).1 hwhole hone, hfold, hjump,
      jump?_of_parenthesized? hbare, h] at hread
    exact (Option.some.inj hread).symm
  rcases accepts_immediate ho with ⟨rest, rfl, hmarked, -⟩ | ⟨hlabel, rfl⟩
  · have hbare : Statement.parenthesized? (String.ofList ('#' :: rest)) = none :=
      parenthesized?_eq_none String.toList_ofList (by decide)
    obtain rfl := hstatement (spelled_of_number hmarked).whole_marked (by simp) hbare
    obtain ⟨n, hn⟩ := hvalued _ rfl
    have hnumber := parse?_isSome_of_valueOf hnative String.toList_ofList (by decide) (by decide) hn
    rw [parse?_eq_none String.toList_ofList (by decide)] at hnumber
    cases hnumber
  · have hspelled := spelled_of_label hlabel
    obtain rfl := hstatement hspelled.whole hspelled.ne_nil hspelled.parenthesized?
    have hcaptured : caps.get .a = String.ofList o := hcaps .a
    refine ⟨by simp [Op.size, hop], V8.codedAs_of_encodes_value hlength hcode hop ?_⟩
    rw [← hcaptured]
    exact hencodes

/-- A `jmp` through memory has a bare operand. -/
theorem follows_bareJump : FollowsAfter earlier (V8.jump (.slot .a absolute) "jmp" opcode) := by
  intro cs caps hmatch _ hbare
  obtain ⟨ops, haccepts, -⟩ := accepts_of_match? hmatch
  obtain ⟨w, gap, o, rfl, hw, hgap, ho⟩ := accepts_spaced.mp haccepts
  have hmnemonic : IsMnemonic "jmp" := by decide
  obtain ⟨hfold, hatom, hne⟩ := hmnemonic.accepts hw
  obtain ⟨hspelled, -⟩ := accepts_absolute ho
  obtain ⟨c, rest, rfl, hparen, hmark⟩ := hspelled.exists_cons
  rw [isBareJump, String.toList_ofList, tokens_append (whole_of_atom hatom) hne
    (accepts_space hgap).1, tokens_last hspelled.whole hspelled.ne_nil] at hbare
  simp [hfold, hparen, hmark] at hbare

/-! ## Loads and stores -/

section Memory

variable {source target : Pattern} {cs : List Char} {ops : List (Slot × String)}
  (ofReg : RegisterIndex → Op)

/-- A mnemonic with the letter of a register, blanks and what follows them. -/
theorem accepts_memory :
    (all [.lit word, register .r, .space, target]).Accepts cs ops ↔
      ∃ w c gap o u, cs = (w ++ [c]) ++ (gap ++ o) ∧ (lit word).Accepts w [] ∧
        V8.isRegisterLetter c = true ∧ space.Accepts gap [] ∧ target.Accepts o u ∧
        ops = u ++ [(Slot.r, String.ofList [c])] :=
  V8.accepts_lettered rfl

/-- A load or a store follows if the line reads as one, whatever its register is. -/
theorem follows_memory (hgroup : HasGroup ofReg opcode)
    (h : ∀ cs ops r p labels n, (all [.lit word, register .r, .space, source]).Accepts cs ops →
      (∀ other ∈ earlier, other.pattern.match? cs = none) →
      Statement.register? (captured ops .r) = some r → Native p labels →
      valueOf p ⟨.dollar, labels, []⟩ (captured ops .a) = some n →
        Statement.read? (String.ofList cs) = some ⟨ofReg r, some (captured ops .a)⟩) :
    FollowsAfter earlier (memory word source opcode) := by
  intro cs caps hmatch hearlier _ p q labels labels' bits statement hnative hencodes hread _ _
  obtain ⟨ops, haccepts, hcaps⟩ := accepts_of_match? hmatch
  obtain ⟨r, hr, hencodes⟩ := V8.exists_register_of_encodes (encodes_register.mp hencodes)
  rw [hcaps] at hr hencodes
  have hcoded : Statement.CodedAs (valueOf p ⟨.dollar, labels, []⟩) (words 8 bits)
      ⟨ofReg r, some (captured ops .a)⟩ :=
    V8.codedAs_of_encodes_value (by rw [List.length_append, hgroup.length, length_ofNat])
      (by rw [V8.toNat_append_register, hgroup.code]) (hgroup.operand r) hencodes
  have ⟨_, n, hn, _⟩ := hcoded
  rw [h cs ops r p labels n haccepts hearlier hr hnative hn] at hread
  obtain rfl := Option.some.inj hread
  exact ⟨by simp [Op.size, hgroup.operand r], hcoded⟩

/-- With an operand that is one token: it is enough to read the token.  The line matches the pattern
of every other operand that accepts it. -/
theorem follows_memory_token (hword : IsTransfer word) (hgroup : HasGroup ofReg opcode)
    (htoken : ∀ o u, source.Accepts o u → Whole o ∧ o ≠ [] ∧ ∃ text, u = [(.a, text)])
    (h : ∀ name o text r p labels n, source.Accepts o [(.a, text)] →
      (∀ word', Statement.named? word' name = if word = word' then some r else none) →
      (∀ rule ∈ earlier, ∀ target ops,
        rule.pattern = all [.lit word, register .r, .space, target] → ¬ target.Accepts o ops) →
      Native p labels → valueOf p ⟨.dollar, labels, []⟩ text = some n →
        Statement.ofOne? name (String.ofList o) = some ⟨ofReg r, some text⟩) :
    FollowsAfter earlier (memory word source opcode) := by
  refine follows_memory ofReg hgroup fun cs ops r p labels n haccepts hearlier hr hnative hn => ?_
  obtain ⟨w, c, gap, o, u, rfl, hw, hc, hgap, ho, rfl⟩ := accepts_memory.mp haccepts
  obtain ⟨hwhole, hne, text, rfl⟩ := htoken o u ho
  have hr : Statement.register? (String.ofList [c]) = some r := hr
  rw [V8.read?_of_operand (hword.isAtom hw hc) (by simp) (accepts_space hgap).1 hwhole hne]
  refine h _ o text r p labels n ho (fun word' => ?_) ?_ hnative hn
  · rw [V8.named?_of_accepts hword.1 hword.2 hw, hr]
  · intro rule hrule target other hpattern htarget
    have hsome := match?_isSome (accepts_memory.mpr
      ⟨w, c, gap, o, other, rfl, hw, hc, hgap, htarget, rfl⟩)
    rw [← hpattern, hearlier rule hrule] at hsome
    exact Bool.noConfusion hsome

/-- With the accumulator as an index. -/
theorem follows_memory_indexed (hword : IsTransfer word) (hgroup : HasGroup ofReg opcode)
    (h : ∀ name token r,
      (∀ word', Statement.named? word' name = if word = word' then some r else none) →
      Statement.withA? name token = some ⟨ofReg r, some token⟩) :
    FollowsAfter earlier (memory word indexed opcode) := by
  refine follows_memory ofReg hgroup fun cs ops r p labels n haccepts _ hr _ _ => ?_
  obtain ⟨w, c, gap, o, u, rfl, hw, hc, hgap, ⟨o, a, u, v, rfl, rfl, ho, ha⟩, rfl⟩ :=
    accepts_memory.mp haccepts
  obtain ⟨hnumber, rfl⟩ := accepts_slot rfl ho
  have hspelled := spelled_of_number hnumber
  obtain ⟨hread, rfl⟩ := V8.read?_of_operand_withA (hword.isAtom hw hc) (by simp)
    (accepts_space hgap).1 hspelled.whole hspelled.ne_nil ha
  have hr : Statement.register? (String.ofList [c]) = some r := hr
  rw [hread]
  refine h _ _ r fun word' => ?_
  rw [V8.named?_of_accepts hword.1 hword.2 hw, hr]

/-- Where a load from a register would have come first, the operand is no register. -/
theorem register?_eq_none {o : List Char} (hmove : move ∈ earlier)
    (h : ∀ rule ∈ earlier, ∀ target ops,
      rule.pattern = all [.lit "ld", register .r, .space, target] → ¬ target.Accepts o ops) :
    Statement.register? (String.ofList o) = none := by
  rw [Option.eq_none_iff_forall_ne_some]
  intro r hr
  have haccepts := V8.accepts_register_of_register? .s hr
  rw [String.toList_ofList] at haccepts
  exact h move hmove _ _ rfl haccepts

theorem follows_move : FollowsAfter earlier move := by
  intro cs caps hmatch _ _ p q labels labels' bits statement _ hencodes hread _ _
  obtain ⟨ops, haccepts, hcaps⟩ := accepts_of_match? hmatch
  obtain ⟨w, c, gap, o, u, rfl, hw, hc, hgap, ho, rfl⟩ := accepts_memory.mp haccepts
  obtain ⟨⟨⟨d, rfl, hd⟩, -⟩, rfl⟩ := accepts_slot rfl ho
  have hword : IsTransfer "ld" := by decide
  obtain ⟨destination, hdestination, hencodes⟩ :=
    V8.exists_register_of_encodes (encodes_register.mp hencodes)
  obtain ⟨r, hr, hencodes⟩ := V8.exists_register_of_encodes (encodes_register.mp hencodes)
  rw [hcaps] at hdestination hr
  have hdestination : Statement.register? (String.ofList [c]) = some destination := hdestination
  have hr : Statement.register? (String.ofList [d]) = some r := hr
  have hwhole : Whole [d] := whole_of_atom (by simpa using V8.isAtomChar_of_isRegisterLetter hd)
  rw [V8.read?_of_operand (hword.isAtom hw hc) (by simp) (accepts_space hgap).1 hwhole (by simp),
    V8.ofOne?_load fun word' => by rw [V8.named?_of_accepts hword.1 hword.2 hw, hdestination]]
    at hread
  rw [Statement.load, hr] at hread
  obtain rfl := Option.some.inj hread
  refine ⟨rfl, V8.codedAs_of_encodes ?_ ?_ rfl hencodes⟩
  · simp [length_ofNat, ofText]
  · rw [V8.toNat_append_register, V8.toNat_append_register]
    change 8 * (8 * 3 + destination.val) + r.val = 192 + 8 * destination.val + r.val
    omega

theorem token_absolute {o : List Char} {u : List (Slot × String)}
    (h : (slot .a absolute).Accepts o u) : Whole o ∧ o ≠ [] ∧ ∃ text, u = [(.a, text)] := by
  obtain ⟨hspelled, rfl⟩ := accepts_absolute h
  exact ⟨hspelled.whole, hspelled.ne_nil, _, rfl⟩

theorem token_indirect {o : List Char} {u : List (Slot × String)} (h : indirect.Accepts o u) :
    Whole o ∧ o ≠ [] ∧ ∃ text, u = [(.a, text)] := by
  obtain ⟨inner, rfl, hspelled, rfl⟩ := accepts_indirect h
  exact ⟨hspelled.whole_parenthesized, by simp, _, rfl⟩

theorem token_immediate {o : List Char} {u : List (Slot × String)} (h : immediate.Accepts o u) :
    Whole o ∧ o ≠ [] ∧ ∃ text, u = [(.a, text)] := by
  rcases accepts_immediate h with ⟨rest, rfl, hnumber, rfl⟩ | ⟨hlabel, rfl⟩
  · exact ⟨(spelled_of_number hnumber).whole_marked, by simp, _, rfl⟩
  · exact ⟨(spelled_of_label hlabel).whole, (spelled_of_label hlabel).ne_nil, _, rfl⟩

/-- An indirect operand that has a value is indirect on the V8. -/
theorem parenthesized?_of_accepts {o : List Char} {text : String} {p : Program}
    {labels : SymbolTable} {n : Int} (h : indirect.Accepts o [(.a, text)])
    (hnative : Native p labels) (hn : valueOf p ⟨.dollar, labels, []⟩ text = some n) :
    Statement.parenthesized? (String.ofList o) = some text := by
  obtain ⟨inner, rfl, hspelled, htext⟩ := accepts_indirect h
  obtain rfl : text = String.ofList inner := by simpa using htext
  exact V8.parenthesized?_of_accepts (accepts_operand hnative hspelled hn)

theorem follows_loadAbsolute (hmove : move ∈ earlier) :
    FollowsAfter earlier (memory "ld" (.slot .a absolute) "10001") := by
  refine follows_memory_token (.load · .absolute) (by decide)
    ⟨by decide, fun r => rfl, fun _ => rfl⟩ (fun _ _ => token_absolute)
    fun name o text r p labels n ho hname hnone _ _ => ?_
  obtain ⟨hspelled, htext⟩ := accepts_absolute ho
  obtain rfl : text = String.ofList o := by simpa using htext
  rw [V8.ofOne?_load hname, Statement.load, register?_eq_none hmove hnone, hspelled.marked?,
    hspelled.parenthesized?]

theorem follows_loadIndirect (hmove : move ∈ earlier) :
    FollowsAfter earlier (memory "ld" indirect "10101") := by
  refine follows_memory_token (.load · .indirect) (by decide)
    ⟨by decide, fun r => rfl, fun _ => rfl⟩ (fun _ _ => token_indirect)
    fun name o text r p labels n ho hname hnone hnative hn => ?_
  have hparenthesized := parenthesized?_of_accepts ho hnative hn
  rw [V8.ofOne?_load hname, Statement.load, register?_eq_none hmove hnone,
    V8.marked?_of_parenthesized? hparenthesized, hparenthesized]

/-- An immediate operand without the mark is a name, which is an absolute operand before. -/
theorem follows_loadImmediate (hmove : move ∈ earlier)
    (habsolute : memory "ld" (.slot .a absolute) "10001" ∈ earlier) :
    FollowsAfter earlier (memory "ld" immediate "01111") := by
  refine follows_memory_token .loadImmediate (by decide)
    ⟨by decide, fun r => rfl, fun _ => rfl⟩ (fun _ _ => token_immediate)
    fun name o text r p labels n ho hname hnone _ _ => ?_
  rcases accepts_immediate ho with ⟨rest, rfl, -, htext⟩ | ⟨hlabel, -⟩
  · obtain rfl : text = String.ofList rest := by simpa using htext
    have hmarked : marked? (String.ofList ('#' :: rest)) = some (String.ofList rest) := by
      simp [marked?]
    rw [V8.ofOne?_load hname, Statement.load, register?_eq_none hmove hnone, hmarked]
  · exact (hnone _ habsolute _ _ rfl ⟨[], Or.inr hlabel, rfl⟩).elim

theorem follows_storeAbsolute :
    FollowsAfter earlier (memory "st" (.slot .a absolute) "10000") := by
  refine follows_memory_token (.store · .absolute) (by decide)
    ⟨by decide, fun r => rfl, fun _ => rfl⟩ (fun _ _ => token_absolute)
    fun name o text r p labels n ho hname _ _ _ => ?_
  obtain ⟨hspelled, htext⟩ := accepts_absolute ho
  obtain rfl : text = String.ofList o := by simpa using htext
  rw [V8.ofOne?_store hname, Statement.store, hspelled.parenthesized?]

theorem follows_storeIndirect : FollowsAfter earlier (memory "st" indirect "10100") := by
  refine follows_memory_token (.store · .indirect) (by decide)
    ⟨by decide, fun r => rfl, fun _ => rfl⟩ (fun _ _ => token_indirect)
    fun name o text r p labels n ho hname _ hnative hn => ?_
  rw [V8.ofOne?_store hname, Statement.store, parenthesized?_of_accepts ho hnative hn]

theorem follows_loadIndexed : FollowsAfter earlier (memory "ld" indexed "10011") := by
  refine follows_memory_indexed (.load · .indexed) (by decide)
    ⟨by decide, fun r => rfl, fun _ => rfl⟩ fun name token r hname => ?_
  simp [Statement.withA?, hname]

theorem follows_storeIndexed : FollowsAfter earlier (memory "st" indexed "10010") := by
  refine follows_memory_indexed (.store · .indexed) (by decide)
    ⟨by decide, fun r => rfl, fun _ => rfl⟩ fun name token r hname => ?_
  simp [Statement.withA?, hname]

end Memory

/-! ## The table -/

/-- The rules of the instructions. -/
def instructions : List Rule :=
  [V8.plain "hlt" "00000000", V8.plain "nop" "00000001",
   V8.jump (.slot .a absolute) "jmp" "00000011"] ++
    V8.jumpCodes.map (fun e => V8.jump immediate e.1 e.2) ++
    (V8.plainCodes.drop 2).map (fun e => V8.plain e.1 e.2) ++
    V8.accumulatorCodes.map (fun e => onRegister (.seq (register .r) withA) e.1 e.2) ++
    V8.registerCodes.map (fun e => onRegister (register .r) e.1 e.2) ++
    [move,
     memory "ld" (.slot .a absolute) "10001",
     memory "ld" indirect "10101",
     memory "ld" immediate "01111",
     memory "ld" indexed "10011",
     memory "st" indexed "10010",
     memory "st" indirect "10100",
     memory "st" (.slot .a absolute) "10000",
     onRegister (register .r) "push" "10110",
     onRegister (register .r) "pull" "10111"]

/-- The rules of labels and directives. -/
def directives : List Rule :=
  [Directive.dataRule .comma 1, Directive.addressRule number, Directive.labelRule label]

theorem rules_eq : rules = instructions ++ directives := by
  simp [rules, instructions, directives]

theorem plainCodes_follow :
    FollowsEach earlier ((V8.plainCodes.drop 2).map fun e => V8.plain e.1 e.2) := by
  refine .of_forall ?_
  simp only [V8.plainCodes, List.drop_succ_cons, List.drop_zero, List.forall_mem_map,
    List.forall_mem_cons, List.not_mem_nil, false_imp_iff, implies_true, and_true]
  refine ⟨?_, ?_, ?_, ?_, ?_, ?_⟩
  all_goals
    exact follows_of_reads (V8.reads_plain (by decide) rfl (by decide) (by decide) rfl)

theorem jumpCodes_follow :
    FollowsEach earlier (V8.jumpCodes.map fun e => V8.jump immediate e.1 e.2) := by
  refine .of_forall ?_
  simp only [V8.jumpCodes, List.forall_mem_map, List.forall_mem_cons, List.not_mem_nil,
    false_imp_iff, implies_true, and_true]
  refine ⟨?_, ?_, ?_, ?_, ?_, ?_⟩
  all_goals exact follows_jump (by decide) (fun _ => rfl) rfl (by decide) (by decide) rfl

theorem accumulatorCodes_follow : FollowsEach earlier
    (V8.accumulatorCodes.map fun e => onRegister (.seq (register .r) withA) e.1 e.2) := by
  refine .of_forall ?_
  simp only [V8.accumulatorCodes, List.forall_mem_map, List.forall_mem_cons, List.not_mem_nil,
    false_imp_iff, implies_true, and_true]
  refine ⟨?_, ?_, ?_, ?_, ?_, ?_⟩
  all_goals
    exact follows_onRegister (V8.reads_accumulator (fun _ _ h => h) (by decide) (by decide)
      rfl (by decide) fun r => ⟨rfl, rfl⟩)

theorem registerCodes_follow : FollowsEach earlier
    (V8.registerCodes.map fun e => onRegister (register .r) e.1 e.2) := by
  refine .of_forall ?_
  simp only [V8.registerCodes, List.forall_mem_map, List.forall_mem_cons, List.not_mem_nil,
    false_imp_iff, implies_true, and_true]
  refine ⟨?_, ?_, ?_, ?_, ?_, ?_, ?_⟩
  all_goals
    exact follows_onRegister (V8.reads_onRegister .register (by decide) (by decide) rfl
      (fun _ _ h => h) (by decide) fun r => ⟨rfl, rfl⟩)

/-- Every rule of the table follows the reading of the lines that it decides. -/
theorem instructions_follow : FollowsEach [] instructions := by
  unfold FollowsEach instructions
  simp only [Rule.soundEach_append]
  refine ⟨⟨⟨⟨⟨⟨?_, ?_, follows_bareJump, trivial⟩, jumpCodes_follow⟩, plainCodes_follow⟩,
    accumulatorCodes_follow⟩, registerCodes_follow⟩, ?_⟩
  · exact follows_of_reads (V8.reads_plain (by decide) rfl (by decide) (by decide) rfl)
  · exact follows_of_reads (V8.reads_plain (by decide) rfl (by decide) (by decide) rfl)
  · refine ⟨follows_move, follows_loadAbsolute (by simp), follows_loadIndirect (by simp),
      follows_loadImmediate (by simp) (by simp), follows_loadIndexed, follows_storeIndexed,
      follows_storeIndirect, follows_storeAbsolute, ?_, ?_, trivial⟩
    all_goals
      exact follows_onRegister (V8.reads_onRegister .register (by decide) (by decide) rfl
        (fun _ _ h => h) (by decide) fun r => ⟨rfl, rfl⟩)

end Rules

end PocketAsm.Lodestar

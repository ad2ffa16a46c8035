/-
  Proofs/V8/Lines.lean --- lines of the V8 and their tokens.

  The texts that the operands of a rule match are the tokens of the line
  (`Shape.fits_of_accepts`), so what a line is read as depends on the shapes of
  its operands only.  A load or a store has the letter of its register at the
  end of its mnemonic (`named?_of_accepts`).
-/
import PocketAsm.Proofs.V8.Meaning

set_option autoImplicit false

namespace PocketAsm.V8

open Operand Pattern Text

/-! ## Registers -/

theorem foldLetter_foldLetter (c : Char) : foldLetter (foldLetter c) = foldLetter c := by
  rcases foldLetter_cases c with h | ⟨hlow, hhigh, -⟩
  · rw [h, h]
  · have hsmall : 97 ≤ (foldLetter c).toNat → foldLetter (foldLetter c) = foldLetter c :=
      ascii_forall (P := fun d => 97 ≤ d.toNat → foldLetter d = d) (by decide +kernel) (by omega)
    exact hsmall hlow

/-- A letter folds onto the small letter of its capital. -/
theorem foldLetter_of_toUpper {c : Char} (hlow : 65 ≤ c.toUpper.toNat)
    (hhigh : c.toUpper.toNat ≤ 90) : foldLetter c = c.toUpper.toLower := by
  have hc : c.toNat < 128 := by
    by_cases hsmall : 'a'.val ≤ c.val ∧ c.val ≤ 'z'.val
    · have hle : c.toNat ≤ 122 := hsmall.2
      omega
    · have hsame : c.toUpper = c := dif_neg hsmall
      rw [hsame] at hhigh
      omega
  have hascii : 65 ≤ c.toUpper.toNat → c.toUpper.toNat ≤ 90 → foldLetter c = c.toUpper.toLower :=
    ascii_forall (P := fun d => 65 ≤ d.toUpper.toNat → d.toUpper.toNat ≤ 90 →
      foldLetter d = d.toUpper.toLower) (by decide +kernel) hc
  exact hascii hlow hhigh

/-- A name in capitals folds onto the name in small letters. -/
theorem folded_of_upperAscii {name : String}
    (h : ∀ c ∈ (upperAscii name).toList, 65 ≤ c.toNat ∧ c.toNat ≤ 90) :
    folded name = String.ofList ((upperAscii name).toList.map Char.toLower) := by
  rw [upperAscii, String.toList_map] at h ⊢
  rw [folded, List.map_map]
  congr 1
  refine List.map_congr_left fun c hc => ?_
  obtain ⟨hlow, hhigh⟩ := h _ (List.mem_map_of_mem hc)
  exact foldLetter_of_toUpper hlow hhigh

theorem register?_congr {name name' : String} (h : folded name = folded name') :
    Statement.register? name = Statement.register? name' := by
  rw [Statement.register?, Statement.register?, h]

/-- The field of a register holds the number of the register with its name. -/
theorem register?_of_registerBits {name : String} {bits : Bits}
    (h : registerBits name = .ok bits) :
    ∃ r : RegisterIndex, Statement.register? name = some r ∧ bits = Bits.ofNat 3 r := by
  unfold registerBits registerCode? at h
  split at h
  · rename_i n hn
    obtain ⟨hlt, hname, -⟩ := List.findIdx?_eq_some_iff_getElem.mp hn
    have hcapitals : ∀ capital ∈ registerNames,
        capital.toList.all (fun c => 65 ≤ c.toNat ∧ c.toNat ≤ 90) = true := by
      decide
    have hupper : registerNames[n] = upperAscii name := beq_iff_eq.mp hname
    have hfolded : folded name = String.ofList (registerNames[n].toList.map Char.toLower) := by
      have hletters := hcapitals _ (List.getElem_mem hlt)
      rw [hupper] at hletters ⊢
      exact folded_of_upperAscii (by simpa using hletters)
    have hsmall : ∀ k (hk : k < registerNames.length),
        let small := String.ofList (registerNames[k].toList.map Char.toLower)
        folded small = small ∧ Statement.register? small = some ⟨k, hk⟩ := by
      decide +kernel
    refine ⟨⟨n, hlt⟩, ?_, (Except.ok.inj h).symm⟩
    rw [← (hsmall n hlt).2]
    exact register?_congr (hfolded.trans (hsmall n hlt).1.symm)
  · cases h

/-- The name of a register is its letter. -/
theorem exists_letter_of_register? {token : String} {r : RegisterIndex}
    (h : Statement.register? token = some r) :
    ∃ c, token = String.ofList [c] ∧ isRegisterLetter c = true := by
  have hletter {letter : Char} (hfold : folded token = String.ofList [letter])
      (hin : 'a' ≤ letter ∧ letter ≤ 'f' ∨ 'x' ≤ letter ∧ letter ≤ 'y') :
      ∃ c, token = String.ofList [c] ∧ isRegisterLetter c = true := by
    have hlist := congrArg String.toList hfold
    rw [toList_folded, String.toList_ofList] at hlist
    obtain ⟨c, cs, htoken, hc, hcs⟩ := List.map_eq_cons_iff.mp hlist
    rw [List.map_eq_nil_iff.mp hcs] at htoken
    refine ⟨c, by rw [← htoken, String.ofList_toList], ?_⟩
    simpa [isRegisterLetter, isLetterIn, hc] using hin
  unfold Statement.register? at h
  split at h
  all_goals first | exact hletter ‹_› (by decide) | cases h

theorem isAtomChar_of_isRegisterLetter {c : Char} (h : isRegisterLetter c = true) :
    isAtomChar c = true := by
  rw [← isAtomChar_foldLetter]
  rcases Bool.or_eq_true_iff.mp h with h | h
  all_goals
    obtain ⟨hlow, hhigh⟩ := Bool.and_eq_true_iff.mp h
    have hlow := of_decide_eq_true hlow
    have hhigh := of_decide_eq_true hhigh
    exact isAtomChar_of_toNat (le_trans (by decide) hlow) (lt_of_le_of_lt hhigh (by decide))

/-! ## Tokens -/

section Tokens

variable {cs w gap o : List Char} {ops : List (Slot × String)}

/-- A line of a mnemonic and an operand. -/
theorem read?_of_operand (hw : ∀ c ∈ w, isAtomChar c = true) (hne : w ≠ []) (hgap : Gap gap)
    (ho : Whole o) (ho' : o ≠ []) :
    Statement.read? (String.ofList (w ++ (gap ++ o))) =
      Statement.ofOne? (folded (String.ofList w)) (String.ofList o) := by
  rw [Statement.read?, String.toList_ofList, tokens_append (whole_of_atom hw) hne hgap,
    tokens_last ho ho']
  rfl

/-- A comma and the accumulator. -/
theorem accepts_withA (h : withA.Accepts cs ops) :
    ∃ gap a, cs = gap ++ a ∧ Gap gap ∧ folded (String.ofList a) = "a" ∧ Whole a ∧ a ≠ [] ∧
      ops = [] := by
  obtain ⟨x₁, y₁, u₁, v₁, rfl, rfl, ⟨hx₁, rfl⟩, h₁⟩ := accepts_all_cons.mp h
  obtain ⟨x₂, y₂, u₂, v₂, rfl, rfl, hcomma, h₂⟩ := accepts_all_cons.mp h₁
  obtain ⟨x₃, y₃, u₃, v₃, rfl, rfl, ⟨hx₃, rfl⟩, hletter⟩ := accepts_all_cons.mp h₂
  obtain ⟨-, rfl⟩ := accepts_letter.mp hcomma
  obtain rfl := accepts_sign (by decide) (by decide) hcomma
  have hmnemonic : IsMnemonic "a" := by decide
  obtain ⟨hfold, hatom, hne⟩ := hmnemonic.accepts hletter
  obtain ⟨-, rfl⟩ := accepts_letter.mp hletter
  refine ⟨x₁ ++ ([','] ++ x₃), y₃, by simp, ⟨by simp, ?_⟩, hfold, whole_of_atom hatom, hne, rfl⟩
  have hcomma : isSeparator ',' = true := by decide
  simp only [List.forall_mem_append, List.forall_mem_singleton, hcomma, true_and]
  exact ⟨fun c hc => isSeparator_of_isBlank (hx₁ c hc),
    fun c hc => isSeparator_of_isBlank (hx₃ c hc)⟩

/-- A line of a mnemonic, an operand and the accumulator. -/
theorem read?_of_operand_withA (hw : ∀ c ∈ w, isAtomChar c = true) (hne : w ≠ []) (hgap : Gap gap)
    (ho : Whole o) (ho' : o ≠ []) {a : List Char} (ha : withA.Accepts a ops) :
    Statement.read? (String.ofList (w ++ (gap ++ (o ++ a)))) =
      Statement.withA? (folded (String.ofList w)) (String.ofList o) ∧ ops = [] := by
  obtain ⟨gap', letter, rfl, hgap', hfold, hwhole, hletter, rfl⟩ := accepts_withA ha
  refine ⟨?_, rfl⟩
  rw [Statement.read?, String.toList_ofList, tokens_append (whole_of_atom hw) hne hgap,
    tokens_append ho ho' hgap', tokens_last hwhole hletter]
  simp only [Statement.ofTokens?, hfold, if_true]

/-- An operand in parentheses is indirect. -/
theorem parenthesized?_of_accepts (h : V8.operand.Accepts cs ops) :
    Statement.parenthesized? (String.ofList ('(' :: (cs ++ [')']))) = some (String.ofList cs) := by
  simp [Statement.parenthesized?, match?_isSome h]

theorem accepts_indirect {slot : Slot} :
    (indirect slot).Accepts cs ops ↔
      ∃ inner, cs = '(' :: (inner ++ [')']) ∧ V8.operand.Accepts inner [] ∧
        ops = [(slot, String.ofList inner)] := by
  constructor
  · intro h
    obtain ⟨x₁, y₁, u₁, v₁, rfl, rfl, hopen, h₁⟩ := accepts_all_cons.mp h
    obtain ⟨inner, y₂, u₂, v₂, rfl, rfl, hinner, hclose⟩ := accepts_all_cons.mp h₁
    obtain ⟨-, rfl⟩ := accepts_letter.mp hopen
    obtain ⟨-, rfl⟩ := accepts_letter.mp hclose
    obtain rfl := accepts_sign (by decide) (by decide) hopen
    obtain rfl := accepts_sign (by decide) (by decide) hclose
    obtain ⟨hoperand, rfl⟩ := accepts_slot rfl hinner
    exact ⟨inner, rfl, hoperand, by simp⟩
  · rintro ⟨inner, rfl, hoperand, rfl⟩
    have hletter (c : Char) : (letter c).Accepts [c] [] :=
      accepts_letter.mpr ⟨⟨c, rfl, by simp [sameLetter]⟩, rfl⟩
    refine accepts_all_cons.mpr
      ⟨['('], inner ++ [')'], [], _, rfl, (List.append_nil _).symm, hletter _, ?_⟩
    exact accepts_all_cons.mpr ⟨inner, [')'], _, [], rfl, rfl, ⟨[], hoperand, rfl⟩, hletter _⟩

/-- A token that is indirect is an operand in parentheses. -/
theorem accepts_of_parenthesized? (slot : Slot) {token text : String}
    (h : Statement.parenthesized? token = some text) :
    (indirect slot).Accepts token.toList [(slot, text)] := by
  unfold Statement.parenthesized? at h
  split at h
  · rename_i rest htoken
    split at h
    · rename_i hrest
      obtain ⟨hlast, hoperand⟩ := hrest
      obtain ⟨caps, hcaps⟩ := Option.isSome_iff_exists.mp hoperand
      obtain ⟨found, haccepts, -⟩ := accepts_of_match? hcaps
      obtain rfl := eq_nil_of_slotFree rfl haccepts
      refine accepts_indirect.mpr ⟨rest.dropLast, ?_, haccepts, ?_⟩
      · rw [htoken, List.dropLast_append_getLast? _ hlast]
      · rw [Option.some.inj h]
    · cases h
  · cases h

end Tokens

/-! ## Shapes of operands -/

/-- What an operand of a line looks like. -/
inductive Shape where
  | register
  | operand
  | indirect
  | immediate
  deriving DecidableEq, Repr, Inhabited

namespace Shape

/-- The pattern of the operand. -/
def pattern (slot : Slot) : Shape → Pattern
  | .register => V8.register slot
  | .operand => .slot slot V8.operand
  | .indirect => V8.indirect slot
  | .immediate => .seq (.letter '#') (.slot slot V8.operand)

/-- The token has the shape, and this text in it is the operand. -/
def Fits (token text : String) : Shape → Prop
  | .register => text = token
  | .operand => text = token ∧ marked? token = none
  | .indirect => Statement.parenthesized? token = some text
  | .immediate => marked? token = some text

/-- What the pattern of an operand accepts is a token of its shape. -/
theorem fits_of_accepts {cs : List Char} {ops : List (Slot × String)} {slot : Slot} (shape : Shape)
    (h : (shape.pattern slot).Accepts cs ops) :
    ∃ text, shape.Fits (String.ofList cs) text ∧ ops = [(slot, text)] ∧ Whole cs ∧ cs ≠ [] := by
  cases shape with
  | register =>
    obtain ⟨⟨⟨c, rfl, hc⟩, -⟩, rfl⟩ := accepts_slot rfl h
    refine ⟨_, rfl, rfl, whole_of_atom ?_, by simp⟩
    simpa using isAtomChar_of_isRegisterLetter hc
  | operand =>
    obtain ⟨hoperand, rfl⟩ := accepts_slot rfl h
    obtain ⟨hwhole, c, rest, rfl, hc⟩ := accepts_value (by decide) hoperand
    refine ⟨_, ⟨rfl, ?_⟩, rfl, hwhole, by simp⟩
    simp [marked?, hc]
  | indirect =>
    obtain ⟨inner, rfl, hoperand, rfl⟩ := accepts_indirect.mp h
    exact ⟨_, parenthesized?_of_accepts hoperand, rfl,
      whole_parenthesized_value (by decide) hoperand, by simp⟩
  | immediate =>
    obtain ⟨x, y, u, v, rfl, rfl, hmark, hslot⟩ := h
    obtain ⟨hoperand, rfl⟩ := accepts_slot rfl hslot
    obtain ⟨hwhole, -⟩ := accepts_value (by decide) hoperand
    obtain ⟨-, rfl⟩ := accepts_letter.mp hmark
    obtain rfl := accepts_sign (by decide) (by decide) hmark
    refine ⟨String.ofList y, ?_, rfl, Whole.append (whole_of_plain ?_ (by decide)) hwhole, by simp⟩
    · simp [Fits, marked?]
    · simp [Plain, isSeparator, isBlank]

end Shape

/-! ## Lines -/

section Lines

variable {cs : List Char} {ops : List (Slot × String)} {word : String} {target : Pattern}

/-- A mnemonic with the letter of a register, what separates it and what follows. -/
theorem accepts_lettered {slot : Slot} {between : Pattern} (hfree : between.slotFree = true) :
    (all [.lit word, .slot slot (.one isRegisterLetter), between, target]).Accepts cs ops ↔
      ∃ w c gap o u, cs = (w ++ [c]) ++ (gap ++ o) ∧ (lit word).Accepts w [] ∧
        isRegisterLetter c = true ∧ between.Accepts gap [] ∧ target.Accepts o u ∧
        ops = u ++ [(slot, String.ofList [c])] := by
  constructor
  · intro h
    obtain ⟨w, y, u, v, rfl, rfl, hw, hy⟩ := accepts_all_cons.mp h
    obtain ⟨letter, z, u', v', rfl, rfl, hletter, hz⟩ := accepts_all_cons.mp hy
    obtain ⟨gap, o, u'', v'', rfl, rfl, hgap, ho⟩ := accepts_all_cons.mp hz
    obtain ⟨-, rfl⟩ := accepts_lit.mp hw
    obtain ⟨⟨⟨c, rfl, hc⟩, -⟩, rfl⟩ := accepts_slot rfl hletter
    obtain rfl := eq_nil_of_slotFree hfree hgap
    exact ⟨w, c, gap, o, v'', by simp, hw, hc, hgap, ho, by simp⟩
  · rintro ⟨w, c, gap, o, u, rfl, hw, hc, hgap, ho, rfl⟩
    rw [List.append_assoc]
    refine accepts_all_cons.mpr ⟨w, [c] ++ (gap ++ o), [], _, rfl, (List.append_nil _).symm, hw, ?_⟩
    refine accepts_all_cons.mpr ⟨[c], gap ++ o, _, u, rfl, rfl, ⟨[], ⟨⟨c, rfl, hc⟩, rfl⟩, rfl⟩, ?_⟩
    exact accepts_all_cons.mpr ⟨gap, o, [], u, rfl, by simp, hgap, ho⟩

theorem accepts_memory :
    (all [.lit word, register .a, .separator, target]).Accepts cs ops ↔
      ∃ w c gap o u, cs = (w ++ [c]) ++ (gap ++ o) ∧ (lit word).Accepts w [] ∧
        isRegisterLetter c = true ∧ separator.Accepts gap [] ∧ target.Accepts o u ∧
        ops = u ++ [(Slot.a, String.ofList [c])] :=
  accepts_lettered rfl

/-- The mnemonic of a load or a store names a register. -/
theorem named?_of_accepts {w : List Char} {c : Char} (hword : IsMnemonic word)
    (hlength : word.toList.length = 2) (hw : (lit word).Accepts w []) (word' : String) :
    Statement.named? word' (folded (String.ofList (w ++ [c]))) =
      if word = word' then Statement.register? (String.ofList [c]) else none := by
  have hfold : w.map foldLetter = word.toList := by
    rw [(accepts_lit.mp hw).1, hword.2.1]
  obtain ⟨d, d', hword'⟩ := List.length_eq_two.mp hlength
  have htoken : (folded (String.ofList (w ++ [c]))).toList = [d, d', foldLetter c] := by
    simp [hfold, hword']
  have hletter : Statement.register? (String.ofList [foldLetter c]) =
      Statement.register? (String.ofList [c]) :=
    register?_congr (by simp [folded, foldLetter_foldLetter])
  have hname : String.ofList [d, d'] = word := by rw [← hword', String.ofList_toList]
  simp only [Statement.named?, htoken, hletter, hname]

end Lines

end PocketAsm.V8

/-
  Proofs/V8/Twins.lean --- twin lines of the V8.

  Every rule of the table does twin things with two lines that differ in pairs
  (`find?_twin`).  Four rules have parentheses of their own around an address,
  and what stands in the pair with the minus sign is a name to them; so a pair
  must not stand where these parentheses may (`openings`).
-/
import PocketAsm.Proofs.Twins
import PocketAsm.Proofs.V8.Lines

set_option autoImplicit false

namespace PocketAsm.V8

open Operand Pattern Template

/-- What stands in front of the parentheses that a line has around an address. -/
def openings : List Pattern :=
  [.all [.lit "jmp", .space], .all [.lit "jsr", .space],
   .all [.lit "ld", register .a, .separator], .all [.lit "st", register .a, .separator]]

variable {x y : List Char} {G : Template → Prop} {t : Template} {mnemonic opcode : String}

/-! ## Pieces of patterns -/

theorem walks_operand (h : Sides (atom .dollar) x y) : Walks x y Token operand :=
  h.walks_value (by decide) (by decide)

theorem tracks_operand (h : Sides (atom .dollar) x y) (slot : Slot) :
    Tracks x y (.slot slot operand) [slot] :=
  .slot (walks_operand h)

theorem walks_letter (h : Sides (atom .dollar) x y) :
    Walks x y Token (.one isRegisterLetter) :=
  (walks_of_skips h.left h.right (by decide)).mono fun _ => IsPlain.token

theorem tracks_register (h : Sides (atom .dollar) x y) (slot : Slot) :
    Tracks x y (register slot) [slot] :=
  .slot (walks_letter h)

theorem walks_space (h : Sides (atom .dollar) x y) : Walks x y IsPlain .space :=
  walks_of_skips h.left h.right (by decide)

/-- A pair is no register. -/
theorem exists_error_of_filling (hx : Filling x) :
    ∃ e, registerBits (String.ofList x) = .error e := by
  cases hbits : registerBits (String.ofList x) with
  | error e => exact ⟨e, rfl⟩
  | ok bits =>
    obtain ⟨r, hr, -⟩ := register?_of_registerBits hbits
    obtain ⟨c, hc, -⟩ := exists_letter_of_register? hr
    obtain ⟨d, rest, rfl, -⟩ := hx.opens
    simpa using congrArg String.toList hc

/-- Where a line has parentheses of its own, what begins with a letter is a name. -/
theorem isParenthesized_indirect (slot : Slot) : IsParenthesized (indirect slot) := by
  intro cs ops h
  obtain ⟨u, w, ops₁, ops₂, rfl, -, hopen, hw⟩ := accepts_all_cons.mp h
  obtain ⟨inner, v, ops₃, ops₄, rfl, -, hslot, hclose⟩ := accepts_all_cons.mp hw
  rw [accepts_sign (by decide) (by decide) hopen, accepts_sign (by decide) (by decide) hclose]
  refine ⟨inner, rfl, fun c hc hletter => ?_⟩
  obtain ⟨ops, hoperand, -⟩ := hslot
  rcases hoperand with hatom | hpair
  · have hnot {d : Char} (hd : (atom .dollar).avoids d = true) : d ∉ inner :=
      not_mem_of_accepts hd hatom
    exact ⟨hnot (by decide), hnot (by decide)⟩
  · -- a pair begins with a parenthesis
    obtain ⟨u, w, ops₁, ops₂, rfl, -, hopen, -⟩ := accepts_all_cons.mp hpair
    rw [accepts_sign (by decide) (by decide) hopen, List.singleton_append, List.head?_cons,
      Option.mem_some_iff] at hc
    rw [← hc] at hletter
    exact absurd hletter (by decide)

/-! ## Rules -/

theorem plain_twin (h : Sides (atom .dollar) x y) (hmnemonic : (lit mnemonic).skips = true) :
    RuleTwin x y G t (plain mnemonic opcode) := by
  have htracks : Tracks x y (lit mnemonic) [] := .walk (walks_of_skips h.left h.right hmnemonic)
  refine .of_match? List.nodup_nil (htracks.match? h.left h.right t) fun caps caps' operand _ => ?_
  exact .emit 1 (.same _ .nil) (by simp)

/-- The operand of a jump is its target. -/
theorem jump_twin_of_match? {target : Pattern} (hmatch : Option.Rel (SameTokens x y t [.a])
      ((jump target mnemonic opcode).pattern.match? (t.fill x))
      ((jump target mnemonic opcode).pattern.match? (t.fill y))) :
    RuleTwin x y G t (jump target mnemonic opcode) := by
  refine .of_match? (by decide) hmatch fun caps caps' operand hbinds => ?_
  rw [hbinds.left, hbinds.right]
  refine .emit 2 (.same _ (.operand (hbinds.token .a) 8 false false .nil)) ?_
  simp [isHole]

theorem jump_twin (h : Sides (atom .dollar) x y) (hmnemonic : (lit mnemonic).skips = true) :
    RuleTwin x y G t (jump (.slot .a operand) mnemonic opcode) := by
  have htracks : Tracks x y (.seq (lit mnemonic) (.seq .space (.slot .a operand))) [.a] :=
    .behind (walks_of_skips h.left h.right hmnemonic)
      (.behind (walks_space h) (tracks_operand h .a))
  exact jump_twin_of_match? (htracks.match? h.left h.right t)

theorem jumpIndirect_twin (h : Sides (atom .dollar) x y) (hmnemonic : (lit mnemonic).skips = true)
    (ht : ¬ Encloses y (.all [.lit mnemonic, .space]) t) :
    RuleTwin x y G t (jump (indirect .a) mnemonic opcode) := by
  have hopening : Tracks x y (.all [.lit mnemonic, .space]) [] :=
    .behind (walks_of_skips h.left h.right hmnemonic) (.walk (walks_space h))
  have hinner : Tracks x y (.all [.slot .a operand, .letter ')']) [.a] :=
    .before (tracks_operand h .a) (walks_of_skips h.left h.right (by decide))
  exact jump_twin_of_match? (hopening.match?_parenthesized hinner (isParenthesized_indirect .a)
    h.left h.right h.plus ht)

theorem onRegister_twin (h : Sides (atom .dollar) x y) (hmnemonic : (lit mnemonic).skips = true)
    {operands : Pattern} (hoperands : Tracks x y operands [.r]) :
    RuleTwin x y G t (onRegister operands mnemonic opcode) := by
  have htracks : Tracks x y (.seq (lit mnemonic) (.seq .space operands)) [.r] :=
    .behind (walks_of_skips h.left h.right hmnemonic) (.behind (walks_space h) hoperands)
  refine .of_match? (by decide) (htracks.match? h.left h.right t) ?_
  intro caps caps' operand hbinds
  rw [hbinds.left, hbinds.right]
  refine .emit 1 (.same _ (.register (hbinds.token .r) (exists_error_of_filling h.left)
    (exists_error_of_filling h.right) .nil)) ?_
  simp [isHole]

theorem move_twin (h : Sides (atom .dollar) x y) : RuleTwin x y G t move := by
  have hseparator : Walks x y IsPlain .separator := walks_of_skips h.left h.right (by decide)
  have htracks : Tracks x y move.pattern [.a, .b] :=
    .behind (walks_of_skips h.left h.right (by decide))
      (.cons (walks_letter h) (.behind hseparator (tracks_register h .b)))
  refine .of_match? (by decide) (htracks.match? h.left h.right t) ?_
  intro caps caps' operand hbinds
  rw [hbinds.left, hbinds.right, hbinds.left, hbinds.right]
  have hx := exists_error_of_filling h.left
  have hy := exists_error_of_filling h.right
  refine .emit 1 (.same _ (.register (hbinds.token .a) hx hy
    (.register (hbinds.token .b) hx hy .nil))) ?_
  simp [isHole]

/-- The operands of a load or store are a register and an address or a number. -/
theorem memory_twin_of_match? (h : Sides (atom .dollar) x y) {source : Pattern}
    (hmatch : Option.Rel (SameTokens x y t [.a, .b])
      ((memory mnemonic source opcode).pattern.match? (t.fill x))
      ((memory mnemonic source opcode).pattern.match? (t.fill y))) :
    RuleTwin x y G t (memory mnemonic source opcode) := by
  refine .of_match? (by decide) hmatch fun caps caps' operand hbinds => ?_
  rw [hbinds.left, hbinds.right, hbinds.left, hbinds.right]
  refine .emit 2 (.same _ (.register (hbinds.token .a) (exists_error_of_filling h.left)
    (exists_error_of_filling h.right) (.operand (hbinds.token .b) 8 false false .nil))) ?_
  simp [isHole]

theorem memory_twin (h : Sides (atom .dollar) x y) (hmnemonic : (lit mnemonic).skips = true)
    {source : Pattern} (hsource : Tracks x y source [.b]) :
    RuleTwin x y G t (memory mnemonic source opcode) := by
  have hseparator : Walks x y IsPlain .separator := walks_of_skips h.left h.right (by decide)
  have htracks : Tracks x y (memory mnemonic source opcode).pattern [.a, .b] :=
    .behind (walks_of_skips h.left h.right hmnemonic)
      (.cons (walks_letter h) (.behind hseparator hsource))
  exact memory_twin_of_match? h (htracks.match? h.left h.right t)

theorem memoryIndirect_twin (h : Sides (atom .dollar) x y)
    (hmnemonic : (lit mnemonic).skips = true)
    (ht : ¬ Encloses y (.all [.lit mnemonic, register .a, .separator]) t) :
    RuleTwin x y G t (memory mnemonic (indirect .b) opcode) := by
  have hseparator : Walks x y IsPlain .separator := walks_of_skips h.left h.right (by decide)
  have hopening : Tracks x y (.all [.lit mnemonic, register .a, .separator]) [.a] :=
    .behind (walks_of_skips h.left h.right hmnemonic)
      (.cons (walks_letter h) (.walk hseparator))
  have hinner : Tracks x y (.all [.slot .b operand, .letter ')']) [.b] :=
    .before (tracks_operand h .b) (walks_of_skips h.left h.right (by decide))
  exact memory_twin_of_match? h (hopening.match?_parenthesized hinner (isParenthesized_indirect .b)
    h.left h.right h.plus ht)

/-! ## The table -/

theorem instructions_twin (h : Sides (atom .dollar) x y)
    (ht : ∀ opening ∈ openings, ¬ Encloses y opening t) :
    ∀ rule ∈ instructions, RuleTwin x y G t rule := by
  have hcodes : (∀ e ∈ plainCodes, (lit e.1).skips = true) ∧
      (∀ e ∈ jumpCodes, (lit e.1).skips = true) ∧
      (∀ e ∈ accumulatorCodes, (lit e.1).skips = true) ∧
      (∀ e ∈ registerCodes, (lit e.1).skips = true) := by
    decide
  obtain ⟨hplain, hjump, haccumulator, hregister⟩ := hcodes
  have hwithA : Walks x y IsPlain withA := walks_of_skips h.left h.right (by decide)
  have hmark : Walks x y IsPlain (.letter '#') := walks_of_skips h.left h.right (by decide)
  simp only [openings, List.forall_mem_cons, List.not_mem_nil, false_imp_iff, implies_true,
    and_true] at ht
  obtain ⟨hjmp, hjsr, hld, hst⟩ := ht
  simp only [instructions, List.forall_mem_append, List.forall_mem_map, List.forall_mem_cons,
    List.not_mem_nil, false_imp_iff, implies_true, and_true]
  refine ⟨⟨⟨⟨⟨fun e he => plain_twin h (hplain e he), ?_⟩, fun e he => jump_twin h (hjump e he)⟩,
    fun e he => ?_⟩, fun e he => ?_⟩, ?_⟩
  · exact ⟨jumpIndirect_twin h (by decide) hjmp, jumpIndirect_twin h (by decide) hjsr⟩
  · exact onRegister_twin h (haccumulator e he) (.before (tracks_register h .r) hwithA)
  · exact onRegister_twin h (hregister e he) (tracks_register h .r)
  · refine ⟨move_twin h, ?_, ?_, ?_, ?_, ?_, ?_, ?_, ?_, ?_⟩
    · exact memory_twin h (by decide) (.before (tracks_operand h .b) hwithA)
    · exact memory_twin h (by decide) (.before (tracks_operand h .b) hwithA)
    · exact memoryIndirect_twin h (by decide) hld
    · exact memoryIndirect_twin h (by decide) hst
    · exact memory_twin h (by decide) (.behind hmark (tracks_operand h .b))
    · exact memory_twin h (by decide) (tracks_operand h .b)
    · exact memory_twin h (by decide) (tracks_operand h .b)
    · exact onRegister_twin h (by decide) (tracks_operand h .r)
    · exact onRegister_twin h (by decide) (tracks_operand h .r)

/-- The dialect does twin things with lines that differ in pairs. -/
theorem find?_twin (h : Sides (atom .dollar) x y) (ht : Clear openings y t) :
    Option.Rel (ActionTwin x y (Clear openings y) (none ∈ t))
      (Rule.find? dialect.rules (t.fill x)) (Rule.find? dialect.rules (t.fill y)) := by
  have hmore : ∀ rule ∈ ([] : List Rule), rule.pattern.BeginsWith (Text.sameLetter '.') := by simp
  have hrules : ∀ rule ∈ instructions, RuleTwin x y (Clear openings y) t rule :=
    instructions_twin h ht.2
  have hfind := ht.1.rel_find? (isName_value .dollar (by decide)) .comma 1 hmore hrules
  rwa [List.append_nil] at hfind

end PocketAsm.V8

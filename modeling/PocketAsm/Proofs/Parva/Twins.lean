/-
  Proofs/Parva/Twins.lean --- twin lines of the Parva.

  Every rule of the table does twin things with two lines that differ in pairs
  (`find?_twin`).  Loads, stores and jumps may have a base register in
  parentheses behind an offset, and to these the inside of the pair with the
  minus sign is a name; so a pair must not stand right behind an offset
  (`openings`).
-/
import PocketAsm.Proofs.Offsets
import PocketAsm.Proofs.Parva.Operands

set_option autoImplicit false

namespace PocketAsm.Parva

open Operand Pattern Template

/-- A load or store up to the end of its offset. -/
def accessOpening (mnemonic : String) (offset : Pattern) : Pattern :=
  .all [.lit mnemonic, .space, .slot .d operand, .separator, .slot .b offset, .optSpace]

/-- A jump up to the end of its offset. -/
def jumpOpening : Pattern := .all [.lit "j", .space, .slot .b operand, .optSpace]

/-- What stands in front of the parentheses that a line has around a base register. -/
def openings : List Pattern :=
  ["lw", "sw", "ld", "sd"].flatMap (fun mnemonic =>
    [accessOpening mnemonic registerName, accessOpening mnemonic operand]) ++ [jumpOpening]

variable {x y : List Char} {t : Template} {mnemonic : String}

/-! ## Pieces of patterns -/

section Pieces

variable (h : Sides Parva.name x y)

include h

theorem walks_character : Walks x y IsPlain character := by
  have hquote : ∀ c, Text.isLetter c = true → Text.sameLetter '\x27' c = false := by
    intro c hc
    rw [Bool.eq_false_iff]
    intro hsame
    have hfold : Text.foldLetter '\x27' = Text.foldLetter c := by
      simpa [Text.sameLetter] using hsame
    rw [Text.isLetter, ← hfold] at hc
    exact absurd hc (by decide)
  have hlast : Walks x y IsPlain (.seq (.one (· != '\n')) (.letter '\x27')) :=
    walks_one_one h.left h.right _ (by decide) hquote
  exact (walks_of_skips h.left h.right (by decide)).seq
    ((walks_of_skips h.left h.right (by decide)).seq
      ((walks_of_skips h.left h.right (by decide)).seq hlast))

theorem walks_name : Walks x y IsPlain Parva.name := walks_of_skips h.left h.right (by decide)

theorem walks_operand : Walks x y Token Parva.operand :=
  ((walks_name h).mono fun _ => IsPlain.token).alt
    ((walks_pair (by decide) (by decide) (by decide) h.left h.right h.pairLeft h.pairRight).alt
      ((walks_character h).mono fun _ => IsPlain.token))

theorem walks_registerName : Walks x y Token registerName :=
  (walks_of_skips h.left h.right (by decide)).mono fun _ => IsPlain.token

theorem walks_space : Walks x y IsPlain .space := walks_of_skips h.left h.right (by decide)

theorem walks_separator : Walks x y IsPlain .separator := walks_of_skips h.left h.right (by decide)

theorem walks_optSpace : Walks x y IsPlain .optSpace := walks_of_skips h.left h.right (by decide)

theorem tracks_one (hmnemonic : (lit mnemonic).skips = true) (slot : Slot) :
    Tracks x y (one mnemonic slot) [slot] :=
  .behind (walks_of_skips h.left h.right hmnemonic)
    (.behind (walks_space h) (.slot (walks_operand h)))

theorem tracks_two (hmnemonic : (lit mnemonic).skips = true) (first second : Slot) :
    Tracks x y (two mnemonic first second) [first, second] :=
  .behind (walks_of_skips h.left h.right hmnemonic) (.behind (walks_space h)
    (.cons (walks_operand h) (.behind (walks_separator h) (.slot (walks_operand h)))))

/-- A mnemonic with three operands. -/
theorem tracks_three (hmnemonic : (lit mnemonic).skips = true) (first second third : Slot) :
    Tracks x y (.all [.lit mnemonic, .space, .slot first Parva.operand, .separator,
      .slot second Parva.operand, .separator, .slot third Parva.operand])
      [first, second, third] :=
  .behind (walks_of_skips h.left h.right hmnemonic) (.behind (walks_space h)
    (.cons (walks_operand h) (.behind (walks_separator h)
      (.cons (walks_operand h) (.behind (walks_separator h) (.slot (walks_operand h)))))))

/-- A base register in parentheses, behind the opening one. -/
theorem tracks_base : Tracks x y
    (.all [.optSpace, .slot .a Parva.operand, .optSpace, .letter ')']) [.a] :=
  .behind (walks_optSpace h) (.cons (walks_operand h)
    (.behind (walks_optSpace h) (.walk (walks_of_skips h.left h.right (by decide)))))

end Pieces

/-- Where a line has parentheses of its own, what begins with a letter is a name. -/
theorem isParenthesized_base : IsParenthesized
    (.seq (.letter '(') (.all [.optSpace, .slot .a Parva.operand, .optSpace, .letter ')'])) := by
  rintro cs ops ⟨u, w, ops₁, ops₂, rfl, -, hopen, hw⟩
  obtain ⟨before, w', u₁, v₁, rfl, -, hbefore, hw'⟩ := accepts_all_cons.mp hw
  obtain ⟨a, w'', u₂, v₂, rfl, -, hslot, hw''⟩ := accepts_all_cons.mp hw'
  obtain ⟨after, v, u₃, v₃, rfl, -, hafter, hclose⟩ := accepts_all_cons.mp hw''
  rw [accepts_sign (by decide) (by decide) hopen, accepts_sign (by decide) (by decide) hclose]
  refine ⟨before ++ (a ++ after), by simp, fun c hc hletter => ?_⟩
  have hblank {cs : List Char} (hcs : ∀ c ∈ cs, Text.isBlank c = true) : ')' ∉ cs ∧ '+' ∉ cs :=
    ⟨fun hmem => absurd (hcs _ hmem) (by decide), fun hmem => absurd (hcs _ hmem) (by decide)⟩
  obtain ⟨hbefore, -⟩ := hbefore
  obtain ⟨hafter, -⟩ := hafter
  obtain ⟨u, hoperand, -⟩ := hslot
  -- no blank is a letter, so the operand begins with one
  obtain rfl : before = [] := by
    cases before with
    | nil => rfl
    | cons d before =>
      obtain rfl : d = c := by simpa using hc
      have hseparator := isSeparator_of_isLetter hletter
      rw [isSeparator_of_isBlank (hbefore d List.mem_cons_self)] at hseparator
      cases hseparator
  have hsign {d : Char} {rest : List Char} (ha : a = d :: rest) (hd : Text.isLetter d = false) :
      False := by
    rw [ha] at hc
    obtain rfl : d = c := by simpa using hc
    rw [hd] at hletter
    cases hletter
  obtain ⟨-, hall⟩ | ⟨inner, ha, -⟩ | ⟨sign, inner, rfl | rfl, ha⟩ := operand_shape hoperand
  · have hname : ')' ∉ a ∧ '+' ∉ a :=
      ⟨fun hmem => absurd (hall _ hmem) (by decide), fun hmem => absurd (hall _ hmem) (by decide)⟩
    simp [hname, hblank hafter]
  · exact (hsign ha (by decide)).elim
  · exact (hsign ha (by decide)).elim
  · exact (hsign ha (by decide)).elim

/-! ## Registers -/

theorem isRegister_of_filling (hx : Filling x) : isRegister (String.ofList x) = false := by
  rw [Bool.eq_false_iff]
  intro hregister
  obtain ⟨c, rest, rfl, -⟩ := hx.opens
  exact absurd ((letters_of_isRegister hregister).2 '(' (by simp)) (by decide)

/-- What is no register has no code. -/
theorem exists_error {code : String → Except Fault Bits} (hx : Filling x)
    (hcode : ∀ name bits, code name = .ok bits → isRegister name = true) :
    ∃ e, code (String.ofList x) = .error e := by
  cases hbits : code (String.ofList x) with
  | error e => exact ⟨e, rfl⟩
  | ok bits =>
    have hregister := hcode _ _ hbits
    rw [isRegister_of_filling hx] at hregister
    cases hregister

theorem exists_ok_of_map {f : Bits → Bits} {code : Except Fault Bits} {bits : Bits}
    (h : code.map f = .ok bits) : ∃ found, code = .ok found := by
  cases code with
  | error e => cases h
  | ok found => exact ⟨found, rfl⟩

/-- The registers of an instruction come from tokens. -/
theorem register_twin {b : Bool} {fields fields' : List Field} {token : Template}
    (h : Sides Parva.name x y) (htoken : token.Token) (code : String → Except Fault Bits)
    (hcode : ∀ name bits, code name = .ok bits → isRegister name = true)
    (hfields : FieldsTwin x y b fields fields') :
    FieldsTwin x y (token.isHole || b) (.register (code (token.text x)) :: fields)
      (.register (code (token.text y)) :: fields') :=
  .register htoken (exists_error h.left hcode) (exists_error h.right hcode) hfields

section Registers

variable {b : Bool} {fields fields' : List Field} {token : Template} (h : Sides Parva.name x y)
  (htoken : token.Token) (hfields : FieldsTwin x y b fields fields')

include h htoken hfields

theorem basic_twin : FieldsTwin x y (token.isHole || b)
    (.register (basic (token.text x)) :: fields) (.register (basic (token.text y)) :: fields') :=
  register_twin h htoken basic (fun _ _ => isRegister_of_basic) hfields

theorem single_twin : FieldsTwin x y (token.isHole || b)
    (.register (single (token.text x)) :: fields) (.register (single (token.text y)) :: fields') :=
  register_twin h htoken single (fun _ _ => isRegister_of_single) hfields

theorem leading_twin : FieldsTwin x y (token.isHole || b)
    (.register (leading (basic (token.text x))) :: fields)
    (.register (leading (basic (token.text y))) :: fields') := by
  refine register_twin h htoken (fun name => leading (basic name)) (fun name bits hbits => ?_)
    hfields
  obtain ⟨found, hfound⟩ := exists_ok_of_map hbits
  exact isRegister_of_basic hfound

theorem trailing_twin : FieldsTwin x y (token.isHole || b)
    (.register (trailing (basic (token.text x))) :: fields)
    (.register (trailing (basic (token.text y))) :: fields') := by
  refine register_twin h htoken (fun name => trailing (basic name)) (fun name bits hbits => ?_)
    hfields
  obtain ⟨found, hfound⟩ := exists_ok_of_map hbits
  exact isRegister_of_basic hfound

end Registers

/-- Tokens agree on what neither text is. -/
theorem test_token {token : Template} (htoken : token.Token) {α : Type} (test : String → α)
    (h : test (String.ofList x) = test (String.ofList y)) :
    test (token.text x) = test (token.text y) := by
  cases htoken with
  | plain cs => rw [Template.text, Template.text, fill_plain, fill_plain]
  | hole => simpa [Template.text] using h

/-! ## Lines of expansions -/

/-- Every opening begins with one of three letters. -/
theorem beginsWith_of_mem_openings :
    ∀ opening ∈ openings, ∃ c ∈ ['l', 's', 'j'], opening.BeginsWith (Text.sameLetter c) := by
  have hheads : ∀ mnemonic ∈ ["lw", "sw", "ld", "sd", "j"],
      mnemonic.toList.head?.any ['l', 's', 'j'].contains = true := by
    decide
  have hbegins (mnemonic : String) (hmem : mnemonic ∈ ["lw", "sw", "ld", "sd", "j"])
      (ps : List Pattern) : ∃ c ∈ ['l', 's', 'j'],
        (Pattern.all (.lit mnemonic :: ps)).BeginsWith (Text.sameLetter c) := by
    obtain ⟨c, hhead, hc⟩ := (Option.any_eq_true _ _).mp (hheads mnemonic hmem)
    exact ⟨c, List.contains_iff_mem.mp hc, (beginsWith_lit hhead).all ps⟩
  rw [openings, List.forall_mem_append, List.forall_mem_flatMap, List.forall_mem_singleton]
  refine ⟨fun mnemonic hmem opening hopening => ?_, hbegins "j" (by decide) _⟩
  have hmem : mnemonic ∈ ["lw", "sw", "ld", "sd", "j"] := List.mem_append_left ["j"] hmem
  rcases List.mem_pair.mp hopening with rfl | rfl
  · exact hbegins mnemonic hmem _
  · exact hbegins mnemonic hmem _

/-- The line begins with a word, but not with the letter of a load, store or jump. -/
def beginsOtherwise (s : String) : Bool :=
  beginsLine s &&
    s.toList.head?.any fun c => ['l', 's', 'j'].all fun d => !Text.sameLetter d c

theorem clear_otherwise {s : String} (hs : beginsOtherwise s = true) (t : Template) :
    Clear openings y (ofText s ++ t) := by
  obtain ⟨hline, hhead⟩ := Bool.and_eq_true_iff.mp hs
  obtain ⟨c, hc, hothers⟩ := (Option.any_eq_true _ _).mp hhead
  refine clear_of_head hc (opened_of_beginsLine hline t) fun opening hopening => ?_
  obtain ⟨d, hd, hbegins⟩ := beginsWith_of_mem_openings opening hopening
  exact ⟨_, hbegins, by simpa using List.all_eq_true.mp hothers d hd⟩

theorem clear_ofText {s : String} (hs : beginsOtherwise s = true) : Clear openings y (ofText s) :=
  List.append_nil (ofText s) ▸ clear_otherwise hs []

theorem clear_closed {s last : String} (hs : beginsLine s = true) (hlast : last.toList ≠ [])
    (t : Template) : Clear openings y (ofText s ++ t ++ ofText last) := by
  refine clear_of_ofText ?_ hlast
  rw [List.append_assoc]
  exact opened_of_beginsLine hs _

/-- A pair that is the whole operand of a jump is no base. -/
theorem clear_jump {token : Template} (htoken : token.Token) :
    Clear openings y (ofText "j " ++ token) := by
  refine ⟨opened_of_beginsLine (by decide) token, ?_⟩
  rintro opening hopening ⟨head, ops, hends, haccepts⟩
  cases htoken with
  | plain cs =>
    have hmem : none ∈ ofText "j " ++ plain cs := by simp [hends]
    simp at hmem
  | hole =>
    obtain rfl := List.append_cancel_right hends
    have hfill : (ofText "j ").fill y = ['j', ' '] := fill_plain _ _
    have hnone : ∀ opening ∈ openings, opening.match? ['j', ' '] = none := by decide
    rw [hfill] at haccepts
    have hsome := match?_isSome haccepts
    rw [hnone opening hopening] at hsome
    cases hsome

/-! ## Rules -/

section Rules

variable (h : Sides Parva.name x y) (hmnemonic : (lit mnemonic).skips = true)
  {G : Template → Prop} {action : Captures → Action}

include h hmnemonic

theorem one_twin (slot : Slot)
    (haction : ∀ caps caps' operand, Binds x y caps caps' operand →
      ActionTwin x y G (operand slot = [none]) (action caps) (action caps')) :
    RuleTwin x y G t ⟨one mnemonic slot, action⟩ := by
  refine .of_match? (by simp) ((tracks_one h hmnemonic slot).match? h.left h.right t) ?_
  intro caps caps' operand hbinds
  simpa using haction caps caps' operand hbinds

theorem two_twin {first second : Slot} (hne : first ≠ second)
    (haction : ∀ caps caps' operand, Binds x y caps caps' operand →
      ActionTwin x y G (operand first = [none] ∨ operand second = [none]) (action caps)
        (action caps')) :
    RuleTwin x y G t ⟨two mnemonic first second, action⟩ := by
  refine .of_match? (by simp [hne])
    ((tracks_two h hmnemonic first second).match? h.left h.right t) ?_
  intro caps caps' operand hbinds
  simpa using haction caps caps' operand hbinds

/-- An instruction with three operands that makes one word. -/
theorem three_twin {first second third : Slot} (hnodup : [first, second, third].Nodup)
    (haction : ∀ caps caps' operand, Binds x y caps caps' operand →
      ActionTwin x y G (operand first = [none] ∨ operand second = [none] ∨ operand third = [none])
        (action caps) (action caps')) :
    RuleTwin x y G t ⟨.all [.lit mnemonic, .space, .slot first Parva.operand, .separator,
      .slot second Parva.operand, .separator, .slot third Parva.operand], action⟩ := by
  refine .of_match? hnodup
    ((tracks_three h hmnemonic first second third).match? h.left h.right t) ?_
  intro caps caps' operand hbinds
  simpa using haction caps caps' operand hbinds

end Rules

section Rules

variable (h : Sides Parva.name x y) {G : Template → Prop}

include h

theorem operation_twin (bits : String) (signed : Bool) (hmnemonic : (lit mnemonic).skips = true)
    (himmediate : (lit (mnemonic ++ "i")).skips = true) :
    ∀ rule ∈ operation mnemonic bits signed, RuleTwin x y G t rule := by
  simp only [operation, List.forall_mem_cons, List.not_mem_nil, false_imp_iff, implies_true,
    and_true]
  refine ⟨three_twin h hmnemonic (by decide) fun caps caps' operand hbinds => ?_,
    three_twin h himmediate (by decide) fun caps caps' operand hbinds => ?_⟩
  · simp only [hbinds.left, hbinds.right]
    refine .emit 1 (.same _ (.same _ (.same _ (single_twin h (hbinds.token .a)
      (basic_twin h (hbinds.token .d) (basic_twin h (hbinds.token .b) (.same _ .nil))))))) ?_
    grind
  · simp only [hbinds.left, hbinds.right]
    refine .emit 1 (.same _ (.same _ (.same _ (single_twin h (hbinds.token .a)
      (basic_twin h (hbinds.token .d) (.operand (hbinds.token .b) 12 signed false .nil)))))) ?_
    grind

theorem product_twin (bits : String) (hmnemonic : (lit mnemonic).skips = true)
    (himmediate : (lit (mnemonic ++ "i")).skips = true) :
    ∀ rule ∈ product mnemonic bits, RuleTwin x y G t rule := by
  simp only [product, List.forall_mem_cons, List.not_mem_nil, false_imp_iff, implies_true,
    and_true]
  refine ⟨three_twin h hmnemonic (by decide) fun caps caps' operand hbinds => ?_,
    three_twin h himmediate (by decide) fun caps caps' operand hbinds => ?_⟩
  · simp only [hbinds.left, hbinds.right]
    refine .emit 1 (.same _ (.same _ (leading_twin h (hbinds.token .a) (.same _
      (trailing_twin h (hbinds.token .a) (basic_twin h (hbinds.token .d)
        (basic_twin h (hbinds.token .b) (.same _ .nil)))))))) ?_
    grind
  · simp only [hbinds.left, hbinds.right]
    refine .emit 1 (.same _ (.same _ (leading_twin h (hbinds.token .a) (.same _
      (trailing_twin h (hbinds.token .a) (basic_twin h (hbinds.token .d)
        (.operand (hbinds.token .b) 12 false false .nil))))))) ?_
    grind

theorem subtraction_twin : RuleTwin x y G t subtraction := by
  refine three_twin h (by decide) (by decide) fun caps caps' operand hbinds => ?_
  simp only [hbinds.left, hbinds.right]
  refine .emit 1 (.same _ (single_twin h (hbinds.token .a) (basic_twin h (hbinds.token .d)
    (basic_twin h (hbinds.token .b) (.same _ .nil))))) ?_
  grind

theorem loadUpper_twin : RuleTwin x y G t loadUpper := by
  refine two_twin h (by decide) (by decide) fun caps caps' operand hbinds => ?_
  simp only [hbinds.left, hbinds.right]
  refine .emit 1 (.same _ (.same _ (basic_twin h (hbinds.token .d)
    (.operand (hbinds.token .a) 12 false false .nil)))) ?_
  grind

theorem branch_twin (bits : String) (swapped : Bool) (hmnemonic : (lit mnemonic).skips = true) :
    RuleTwin x y G t (branch mnemonic bits swapped) := by
  refine three_twin h hmnemonic (by decide) fun caps caps' operand hbinds => ?_
  simp only [hbinds.left, hbinds.right]
  cases swapped
  · refine .emit 1 (.same _ (.same _ (single_twin h (hbinds.token .a)
      (basic_twin h (hbinds.token .d) (.operand (hbinds.token .b) 12 true true .nil))))) ?_
    grind
  · refine .emit 1 (.same _ (.same _ (single_twin h (hbinds.token .d)
      (basic_twin h (hbinds.token .a) (.operand (hbinds.token .b) 12 true true .nil))))) ?_
    grind

theorem branchSign_twin (bits : String) (hmnemonic : (lit mnemonic).skips = true) :
    RuleTwin x y G t (branchSign mnemonic bits) := by
  refine two_twin h hmnemonic (by decide) fun caps caps' operand hbinds => ?_
  simp only [hbinds.left, hbinds.right]
  refine .emit 1 (.same _ (.same _ (single_twin h (hbinds.token .a) (.same _
    (.operand (hbinds.token .b) 12 true true .nil))))) ?_
  grind

/-- Where a line has parentheses around a base, the pair must not be these. -/
theorem based_twin {opening pattern : Pattern} {names : List Slot} {action : Captures → Action}
    (hopening : Tracks x y opening names)
    (hpattern : ∀ cs, pattern.match? cs = (Pattern.seq opening (.seq (.letter '(')
      (.all [.optSpace, .slot .a Parva.operand, .optSpace, .letter ')']))).match? cs)
    (hnodup : (names ++ [Slot.a]).Nodup) (ht : ¬ Encloses y opening t)
    (haction : ∀ caps caps' operand, Binds x y caps caps' operand →
      ActionTwin x y G (∃ slot ∈ names ++ [Slot.a], operand slot = [none]) (action caps)
        (action caps')) :
    RuleTwin x y G t ⟨pattern, action⟩ := by
  refine .of_match? hnodup ?_ haction
  rw [hpattern, hpattern]
  exact hopening.match?_parenthesized (tracks_base h) isParenthesized_base h.left h.right h.plus ht

theorem access_twin (hmnemonic : (lit mnemonic).skips = true) {bits : String}
    {destination : String → Except Fault Bits}
    (hdestination : ∀ name bits, destination name = .ok bits → isRegister name = true)
    (hregister : ¬ Encloses y (accessOpening mnemonic registerName) t)
    (hnumber : ¬ Encloses y (accessOpening mnemonic Parva.operand) t) :
    ∀ rule ∈ access mnemonic bits destination, RuleTwin x y G t rule := by
  have hopening {offset : Pattern} (hoffset : Walks x y Token offset) :
      Tracks x y (accessOpening mnemonic offset) [.d, .b] :=
    .behind (walks_of_skips h.left h.right hmnemonic) (.behind (walks_space h)
      (.cons (walks_operand h) (.behind (walks_separator h)
        (.cons hoffset (.walk (walks_optSpace h))))))
  simp only [access, List.forall_mem_cons, List.not_mem_nil, false_imp_iff, implies_true, and_true]
  refine ⟨based_twin h (hopening (walks_registerName h)) (fun _ => rfl) (by decide) hregister ?_,
    based_twin h (hopening (walks_operand h)) (fun _ => rfl) (by decide) hnumber ?_⟩
  · intro caps caps' operand hbinds
    simp only [hbinds.left, hbinds.right]
    refine .emit 1 (.same _ (.same _ (.same _ (single_twin h (hbinds.token .a)
      (register_twin h (hbinds.token .d) destination hdestination
        (basic_twin h (hbinds.token .b) (.same _ .nil))))))) ?_
    grind
  · intro caps caps' operand hbinds
    simp only [hbinds.left, hbinds.right]
    refine .emit 1 (.same _ (.same _ (.same _ (single_twin h (hbinds.token .a)
      (register_twin h (hbinds.token .d) destination hdestination
        (.operand (hbinds.token .b) 12 true false .nil)))))) ?_
    grind

theorem jump_twin {a b : Template} (ha : a.Token) (hb : b.Token) :
    ActionTwin x y G (b = [none] ∨ a = [none]) (jump (a.text x) (b.text x))
      (jump (a.text y) (b.text y)) := by
  have hregister : isRegister (b.text x) = isRegister (b.text y) :=
    test_token hb isRegister
      ((isRegister_of_filling h.left).trans (isRegister_of_filling h.right).symm)
  rw [jump, jump, hregister]
  split
  · refine .emit 1 (.same _ (.same _ (single_twin h ha (.same _
      (basic_twin h hb (.same _ .nil)))))) ?_
    simp [isHole, or_comm]
  · refine .emit 1 (.same _ (.same _ (single_twin h ha (.same _
      (.operand hb 12 false false .nil))))) ?_
    simp [isHole, or_comm]

end Rules

/-! ## Rules that are expanded -/

/-- A load of a small number or of a symbol. -/
theorem loadSmall_twin (d a : Template) :
    ActionTwin x y (Clear openings y) (d = [none] ∨ a = [none])
      (.expand [s!"addi {d.text x}, zero, {a.text x}"])
      (.expand [s!"addi {d.text y}, zero, {a.text y}"]) := by
  refine .expand_line (ofText "addi " ++ (d ++ (ofText ", zero, " ++ a))) ?_ ?_
    (clear_otherwise (by decide) _) ?_
  · simp [toString, String.append_assoc]
  · simp [toString, String.append_assoc]
  · rintro (hd | ha) <;> simp [*]

/-- A load of a number in two halves. -/
theorem loadHalves_twin (d : Template) (high low : String) :
    ActionTwin x y (Clear openings y) (d = [none])
      (.expand [s!"lui {d.text x}, {high}", s!"ori {d.text x}, {d.text x}, {low}"])
      (.expand [s!"lui {d.text y}, {high}", s!"ori {d.text y}, {d.text y}, {low}"]) := by
  refine .expand_lines (ofText "lui " ++ d ++ ofText (", " ++ high))
    (ofText "ori " ++ (d ++ (ofText ", " ++ (d ++ ofText (", " ++ low))))) ?_ ?_
    ⟨clear_closed (by decide) (by simp) _, clear_otherwise (by decide) _⟩ ?_
  · simp [toString, String.append_assoc]
  · simp [toString, String.append_assoc]
  · rintro rfl
    simp

section Expansions

variable (h : Sides Parva.name x y)

include h

theorem accessAbsolute_twin (hmnemonic : (lit mnemonic).skips = true)
    (hline : beginsLine (mnemonic ++ " ") = true) :
    RuleTwin x y (Clear openings y) t (accessAbsolute mnemonic) := by
  refine two_twin h hmnemonic (by decide) fun caps caps' operand hbinds => ?_
  refine .expand_line (ofText (mnemonic ++ " ") ++ (operand .d ++ (ofText ", " ++ operand .b)) ++
    ofText "(zero)") ?_ ?_ (clear_closed hline (by decide) _) ?_
  · simp [hbinds.left, toString, String.append_assoc]
  · simp [hbinds.right, toString, String.append_assoc]
  · rintro (hd | hb) <;> simp [*]

theorem branchZero_twin (hmnemonic : (lit mnemonic).skips = true) {real : String}
    (hline : beginsOtherwise (real ++ " zero, ") = true) :
    RuleTwin x y (Clear openings y) t (branchZero mnemonic real) := by
  refine two_twin h hmnemonic (by decide) fun caps caps' operand hbinds => ?_
  refine .expand_line (ofText (real ++ " zero, ") ++ (operand .a ++ (ofText ", " ++ operand .b)))
    ?_ ?_ (clear_otherwise hline _) ?_
  · simp [hbinds.left, toString, String.append_assoc]
  · simp [hbinds.right, toString, String.append_assoc]
  · rintro (ha | hb) <;> simp [*]

/-- A pair is no number, so it is loaded as a symbol is. -/
theorem loadNumber_twin {d a : Template} (ha : a.Token) :
    ActionTwin x y (Clear openings y) (d = [none] ∨ a = [none]) (loadNumber (d.text x) (a.text x))
      (loadNumber (d.text y) (a.text y)) := by
  have hsmall : ActionTwin x y _ _ _ _ := loadSmall_twin d a
  cases ha with
  | hole =>
    have hnone {z : List Char} (hz : Filling z) :
        NumberSyntax.zeroMarked.read (Template.text z [none]) = .ok none := by
      obtain ⟨c, rest, rfl, -⟩ := hz.opens
      rw [Template.text, fill_none, fill_nil, List.append_nil]
      exact NumberSyntax.read_eq_none (by decide) (.inl rfl) _
    rw [loadNumber, loadNumber, hnone h.left, hnone h.right]
    exact hsmall
  | plain cs =>
    have htext (z : List Char) : Template.text z (plain cs) = String.ofList cs := by
      rw [Template.text, fill_plain]
    rw [htext, htext] at hsmall ⊢
    have hnot : plain cs ≠ [none] := fun hhole => none_not_mem_plain cs (by simp [hhole])
    rw [loadNumber, loadNumber]
    split
    · exact .reject _ _
    · exact hsmall
    · split
      · exact .reject _ _
      · split
        · exact hsmall
        · refine (loadHalves_twin d _ _).mono fun hb => hb.resolve_right hnot

/-- A mnemonic that is short for one line. -/
theorem fixed_twin (hmnemonic : (lit mnemonic).skips = true) {line : String}
    (hline : Clear openings y (ofText line)) :
    RuleTwin x y (Clear openings y) t ⟨.lit mnemonic, fun _ => .expand [line]⟩ := by
  have htracks : Tracks x y (lit mnemonic) [] := .walk (walks_of_skips h.left h.right hmnemonic)
  refine .of_match? List.nodup_nil (htracks.match? h.left h.right t) fun _ _ _ _ => ?_
  exact .expand_line (ofText line) (text_ofText _ _).symm (text_ofText _ _).symm hline (by simp)

theorem move_twin : RuleTwin x y (Clear openings y) t
    ⟨two "mv" .d .a, fun caps => .expand [s!"add {caps.get .d}, zero, {caps.get .a}"]⟩ := by
  refine two_twin h (by decide) (by decide) fun caps caps' operand hbinds => ?_
  refine .expand_line (ofText "add " ++ (operand .d ++ (ofText ", zero, " ++ operand .a))) ?_ ?_
    (clear_otherwise (by decide) _) ?_
  · simp [hbinds.left, toString, String.append_assoc]
  · simp [hbinds.right, toString, String.append_assoc]
  · rintro (hd | ha) <;> simp [*]

theorem push_twin : RuleTwin x y (Clear openings y) t
    ⟨one "push" .a, fun caps => .expand [s!"sw {caps.get .a}, 0(sp)", "addi sp, sp, 1"]⟩ := by
  refine one_twin h (by decide) .a fun caps caps' operand hbinds => ?_
  refine .expand_lines (ofText "sw " ++ operand .a ++ ofText ", 0(sp)") (ofText "addi sp, sp, 1")
    ?_ ?_ ⟨clear_closed (by decide) (by decide) _, clear_ofText (by decide)⟩ ?_
  · simp [hbinds.left, toString, String.append_assoc]
  · simp [hbinds.right, toString, String.append_assoc]
  · intro ha
    simp [ha]

theorem pop_twin : RuleTwin x y (Clear openings y) t
    ⟨one "pop" .a, fun caps => .expand ["addi sp, sp, -1", s!"lw {caps.get .a}, 0(sp)"]⟩ := by
  refine one_twin h (by decide) .a fun caps caps' operand hbinds => ?_
  refine .expand_lines (ofText "addi sp, sp, -1") (ofText "lw " ++ operand .a ++ ofText ", 0(sp)")
    ?_ ?_ ⟨clear_ofText (by decide), clear_closed (by decide) (by decide) _⟩ ?_
  · simp [hbinds.left, toString, String.append_assoc]
  · simp [hbinds.right, toString, String.append_assoc]
  · intro ha
    simp [ha]

theorem jumpAbsolute_twin : RuleTwin x y (Clear openings y) t
    ⟨one "j" .b, fun caps => .expand [s!"j {caps.get .b}(zero)"]⟩ := by
  refine one_twin h (by decide) .b fun caps caps' operand hbinds => ?_
  refine .expand_line (ofText "j " ++ operand .b ++ ofText "(zero)") ?_ ?_
    (clear_closed (by decide) (by decide) _) ?_
  · simp [hbinds.left, toString, String.append_assoc]
  · simp [hbinds.right, toString, String.append_assoc]
  · intro hb
    simp [hb]

theorem call_twin : RuleTwin x y (Clear openings y) t
    ⟨one "call" .a, fun caps => .expand ["addi ra, pc, 2", s!"j {caps.get .a}"]⟩ := by
  refine one_twin h (by decide) .a fun caps caps' operand hbinds => ?_
  refine .expand_lines (ofText "addi ra, pc, 2") (ofText "j " ++ operand .a) ?_ ?_
    ⟨clear_ofText (by decide), clear_jump (hbinds.token .a)⟩ ?_
  · simp [hbinds.left, toString]
  · simp [hbinds.right, toString]
  · intro ha
    simp [ha]

/-- A pair is no register, so a branch to it is one to an address. -/
theorem branchAlways_twin {a : Template} (ha : a.Token) :
    ActionTwin x y (Clear openings y) (a = [none]) (branchAlways (a.text x))
      (branchAlways (a.text y)) := by
  have hregister : isRegister (a.text x) = isRegister (a.text y) :=
    test_token ha isRegister
      ((isRegister_of_filling h.left).trans (isRegister_of_filling h.right).symm)
  rw [branchAlways, branchAlways, hregister]
  split
  · refine .expand_line (ofText "j " ++ a ++ ofText "(pc)") ?_ ?_
      (clear_closed (by decide) (by decide) _) ?_
    · simp [toString, String.append_assoc]
    · simp [toString, String.append_assoc]
    · rintro rfl
      simp
  · refine .expand_line (ofText "beq x0, x0, " ++ a) ?_ ?_ (clear_otherwise (by decide) _) ?_
    · simp [toString]
    · simp [toString]
    · rintro rfl
      simp

end Expansions

/-! ## The table -/

theorem instructions_twin (h : Sides Parva.name x y)
    (ht : ∀ opening ∈ openings, ¬ Encloses y opening t) :
    ∀ rule ∈ instructions, RuleTwin x y (Clear openings y) t rule := by
  have haccess {mnemonic : String} (hmem : mnemonic ∈ ["lw", "sw", "ld", "sd"]) :
      ¬ Encloses y (accessOpening mnemonic registerName) t ∧
        ¬ Encloses y (accessOpening mnemonic Parva.operand) t := by
    refine ⟨ht _ (List.mem_append_left _ ?_), ht _ (List.mem_append_left _ ?_)⟩
    · exact List.mem_flatMap.mpr ⟨mnemonic, hmem, by simp⟩
    · exact List.mem_flatMap.mpr ⟨mnemonic, hmem, by simp⟩
  simp only [instructions, List.forall_mem_append, and_assoc]
  refine ⟨?_, ?_, ?_, ?_, ?_, ?_, ?_, ?_, ?_, ?_, ?_, ?_, ?_, ?_, ?_, ?_⟩
  · exact operation_twin h _ _ (by decide) (by decide)
  · exact List.forall_mem_cons.mpr
      ⟨subtraction_twin h, List.forall_mem_singleton.mpr (loadUpper_twin h)⟩
  · simp only [List.forall_mem_flatMap, List.forall_mem_cons, List.not_mem_nil, false_imp_iff,
      implies_true, and_true]
    refine ⟨?_, ?_, ?_, ?_, ?_, ?_⟩
    all_goals exact operation_twin h _ _ (by decide) (by decide)
  · simp only [List.forall_mem_flatMap, List.forall_mem_cons, List.not_mem_nil, false_imp_iff,
      implies_true, and_true]
    refine ⟨?_, ?_, ?_, ?_⟩
    all_goals exact product_twin h _ (by decide) (by decide)
  · simp only [List.forall_mem_cons, List.not_mem_nil, false_imp_iff, implies_true, and_true]
    refine ⟨fixed_twin h (by decide) (clear_ofText (by decide)), move_twin h,
      two_twin h (by decide) (by decide) fun caps caps' operand hbinds => ?_⟩
    rw [hbinds.left, hbinds.right, hbinds.left, hbinds.right]
    exact loadNumber_twin h (hbinds.token .a)
  · exact access_twin h (by decide) (fun _ _ => isRegister_of_basic) (haccess (by decide)).1
      (haccess (by decide)).2
  · exact access_twin h (by decide) (fun _ _ => isRegister_of_basic) (haccess (by decide)).1
      (haccess (by decide)).2
  · exact access_twin h (by decide) (fun _ _ => isRegister_of_double) (haccess (by decide)).1
      (haccess (by decide)).2
  · exact access_twin h (by decide) (fun _ _ => isRegister_of_double) (haccess (by decide)).1
      (haccess (by decide)).2
  · have hlines : ∀ mnemonic ∈ ["lw", "sw", "ld", "sd"],
        (lit mnemonic).skips = true ∧ beginsLine (mnemonic ++ " ") = true := by
      decide
    rw [List.forall_mem_map]
    exact fun mnemonic hmem => accessAbsolute_twin h (hlines _ hmem).1 (hlines _ hmem).2
  · exact List.forall_mem_cons.mpr ⟨push_twin h, List.forall_mem_singleton.mpr (pop_twin h)⟩
  · simp only [List.forall_mem_map, List.forall_mem_cons, List.not_mem_nil, false_imp_iff,
      implies_true, and_true]
    refine ⟨?_, ?_, ?_, ?_, ?_, ?_⟩
    all_goals exact branch_twin h _ _ (by decide)
  · simp only [List.forall_mem_map, List.forall_mem_cons, List.not_mem_nil, false_imp_iff,
      implies_true, and_true]
    refine ⟨?_, ?_, ?_, ?_⟩
    all_goals exact branch_twin h _ _ (by decide)
  · simp only [List.forall_mem_map, List.forall_mem_cons, List.not_mem_nil, false_imp_iff,
      implies_true, and_true]
    refine ⟨?_, ?_, ?_, ?_⟩
    all_goals exact branchZero_twin h (by decide) (by decide)
  · simp only [List.forall_mem_map, List.forall_mem_cons, List.not_mem_nil, false_imp_iff,
      implies_true, and_true]
    exact ⟨branchSign_twin h _ (by decide), branchSign_twin h _ (by decide)⟩
  · simp only [List.forall_mem_cons, List.not_mem_nil, false_imp_iff, implies_true, and_true]
    refine ⟨?_, jumpAbsolute_twin h, ?_, fixed_twin h (by decide) (clear_ofText (by decide)),
      call_twin h, fixed_twin h (by decide) (clear_jump (.plain "ra".toList))⟩
    · have hopening : Tracks x y jumpOpening [.b] :=
        .behind (walks_of_skips h.left h.right (by decide)) (.behind (walks_space h)
          (.cons (walks_operand h) (.walk (walks_optSpace h))))
      have hjump : ¬ Encloses y jumpOpening t := ht _ (List.mem_append_right _ (by simp))
      refine based_twin h hopening (fun _ => rfl) (by decide) hjump
        fun caps caps' operand hbinds => ?_
      rw [hbinds.left, hbinds.right, hbinds.left, hbinds.right]
      simpa using jump_twin h (hbinds.token .a) (hbinds.token .b)
    · refine one_twin h (by decide) .a fun caps caps' operand hbinds => ?_
      rw [hbinds.left, hbinds.right]
      exact branchAlways_twin h (hbinds.token .a)

/-- An operand that begins with a letter is a name or a number. -/
theorem isName_operand : IsName Parva.operand := by
  intro cs ops c rest h hcs hletter
  have hsign {d : Char} {others : List Char} (hd : cs = d :: others)
      (hnot : Text.isLetter d = false) : False := by
    obtain rfl : d = c := (List.cons.inj (hd.symm.trans hcs)).1
    rw [hnot] at hletter
    cases hletter
  obtain ⟨-, hall⟩ | ⟨inner, hparens, -⟩ | ⟨sign, inner, rfl | rfl, hquote⟩ := operand_shape h
  · exact fun d hd => isSeparator_of_isNameChar (hall d hd)
  · exact (hsign hparens (by decide)).elim
  · exact (hsign hquote (by decide)).elim
  · exact (hsign hquote (by decide)).elim

/-- The dialect does twin things with lines that differ in pairs. -/
theorem find?_twin (h : Sides Parva.name x y) (ht : Clear openings y t) :
    Option.Rel (ActionTwin x y (Clear openings y) (none ∈ t))
      (Rule.find? dialect.rules (t.fill x)) (Rule.find? dialect.rules (t.fill y)) := by
  have hmore : ∀ rule ∈ textDirectives, rule.pattern.BeginsWith (Text.sameLetter '.') := by
    rw [textDirectives, List.forall_mem_cons, List.forall_mem_singleton]
    exact ⟨(beginsWith_lit (by decide)).all _, (beginsWith_lit (by decide)).all _⟩
  have hfind := ht.1.rel_find? isName_operand .separator 1 hmore (instructions_twin h ht.2)
  rwa [← List.append_assoc] at hfind

end PocketAsm.Parva

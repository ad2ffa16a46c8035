/-
  Proofs/Bitzzy/Twins.lean --- twin lines of the Bitzzy.

  No line of the Bitzzy has parentheses other than those of pairs, so every
  rule of the table does twin things with two lines that differ in pairs,
  wherever these stand (`find?_twin`).
-/
import PocketAsm.Isa.Bitzzy.Dialect
import PocketAsm.Proofs.Twins

set_option autoImplicit false

namespace PocketAsm.Bitzzy

open Operand Pattern Template

variable {x y : List Char} {t : Template} {mnemonic : String} {op : Op}

/-! ## Operands of lines -/

section Pieces

variable (h : Sides (atom .dollar) x y)

include h

theorem tracks_inSlot (slot : Slot) : Tracks x y (inSlot slot) [slot] :=
  .slot (h.walks_value (by decide) (by decide))

theorem tracks_immediate : Tracks x y immediate [.a] :=
  .behind (walks_of_skips h.left h.right (by decide)) (tracks_inSlot h .a)

theorem tracks_theReg (r : Reg) : Tracks x y (theReg r) [] :=
  .walk (walks_of_skips h.left h.right (by cases r <;> decide))

theorem tracks_pair : Tracks x y (.lit "yx") [] :=
  .walk (walks_of_skips h.left h.right (by decide))

theorem tracks_anyReg (slot : Slot) : Tracks x y (.slot slot anyReg) [slot] :=
  .slot ((walks_of_skips h.left h.right (by decide)).mono fun _ => IsPlain.token)

/-- The operands of a line, one after the other. -/
theorem tracks_line (hmnemonic : (lit mnemonic).skips = true) {ps : List Pattern}
    {names : List (List Slot)} (hps : List.Forall₂ (Tracks x y) ps names) :
    Tracks x y (line mnemonic ps) names.flatten := by
  have hlit : Tracks x y (lit mnemonic) [] := .walk (walks_of_skips h.left h.right hmnemonic)
  have hspace : Tracks x y .space [] := .walk (walks_of_skips h.left h.right (by decide))
  have hseparator : Tracks x y .separator [] := .walk (walks_of_skips h.left h.right (by decide))
  -- separators take no slots
  have hrest {ps : List Pattern} {names : List (List Slot)}
      (hps : List.Forall₂ (Tracks x y) ps names) :
      ∃ names', List.Forall₂ (Tracks x y) (ps.flatMap ([.separator, ·])) names' ∧
        names'.flatten = names.flatten := by
    induction hps with
    | nil => exact ⟨[], .nil, rfl⟩
    | @cons p name ps names hp _ ih =>
      obtain ⟨names', hnames', hflatten⟩ := ih
      exact ⟨[] :: name :: names', .cons hseparator (.cons hp hnames'), by simp [hflatten]⟩
  cases hps with
  | nil => exact hlit
  | @cons p name ps names hp hps =>
    obtain ⟨names', hnames', hflatten⟩ := hrest hps
    have htracks := tracks_all (.cons hlit (.cons hspace (.cons hp hnames')))
    simpa [line, hflatten] using htracks

end Pieces

/-! ## Rules -/

section Rules

variable (h : Sides (atom .dollar) x y) (hmnemonic : (lit mnemonic).skips = true)
  {ps : List Pattern} {names : List (List Slot)} (hps : List.Forall₂ (Tracks x y) ps names)

include h hmnemonic hps

/-- A rule does twin things if its action does so with the operands in its slots. -/
theorem twin_of_action {action : Captures → Action} (hnodup : names.flatten.Nodup)
    (haction : ∀ caps caps' operand, Binds x y caps caps' operand →
      ActionTwin x y (Clear [] y) (∃ slot ∈ names.flatten, operand slot = [none]) (action caps)
        (action caps')) :
    RuleTwin x y (Clear [] y) t ⟨line mnemonic ps, action⟩ :=
  .of_match? hnodup ((tracks_line h hmnemonic hps).match? h.left h.right t) haction

theorem plain_twin (hnames : names.flatten = []) :
    RuleTwin x y (Clear [] y) t (plain (line mnemonic ps) op) := by
  refine twin_of_action h hmnemonic hps (by simp [hnames]) fun caps caps' operand hbinds => ?_
  exact .emit 1 (.same _ .nil) (by simp [hnames])

theorem withImmediate_twin (hnames : names.flatten = [.a]) :
    RuleTwin x y (Clear [] y) t (withImmediate (line mnemonic ps) op) := by
  refine twin_of_action h hmnemonic hps (by simp [hnames]) fun caps caps' operand hbinds => ?_
  rw [hbinds.left, hbinds.right]
  exact .emit 2 (.same _ (.operand (hbinds.token .a) 8 false false .nil)) (by simp [hnames, isHole])

theorem withAddress_twin (hnames : names.flatten = [.a]) :
    RuleTwin x y (Clear [] y) t (withAddress (line mnemonic ps) op) := by
  refine twin_of_action h hmnemonic hps (by simp [hnames]) fun caps caps' operand hbinds => ?_
  rw [hbinds.left, hbinds.right]
  exact .emit 3 (.same _ (.operand (hbinds.token .a) 16 false false .nil))
    (by simp [hnames, isHole])

theorem withBoth_twin (hnames : names.flatten = [.a, .b]) :
    RuleTwin x y (Clear [] y) t (withBoth (line mnemonic ps) op) := by
  refine twin_of_action h hmnemonic hps (by simp [hnames]) fun caps caps' operand hbinds => ?_
  rw [hbinds.left, hbinds.right, hbinds.left, hbinds.right]
  refine .emit 4 (.same _ (.operand (hbinds.token .b) 16 false false
    (.operand (hbinds.token .a) 8 false false .nil))) ?_
  rw [hnames]
  simpa [isHole] using Or.symm

theorem refused_twin (hnames : names.flatten.Nodup) (name first second : String) :
    RuleTwin x y (Clear [] y) t (refused (line mnemonic ps) name first second) :=
  twin_of_action h hmnemonic hps hnames fun _ _ _ _ => .reject _ _

/-- A line that is spelled anew has its operand, if there is one, at its end. -/
theorem respelled_twin (listed : String) (hlisted : beginsLine listed = true)
    (hnames : names.flatten = [.a]) :
    RuleTwin x y (Clear [] y) t (respelled (line mnemonic ps)
      fun caps => listed ++ ", " ++ caps.get .a) := by
  refine twin_of_action h hmnemonic hps (by simp [hnames]) fun caps caps' operand hbinds => ?_
  let respelling := ofText listed ++ (ofText ", " ++ operand .a)
  refine .expand_line respelling ?_ ?_ ⟨opened_of_beginsLine hlisted _, by simp⟩ ?_
  · simp [respelling, hbinds.left, String.append_assoc]
  · simp [respelling, hbinds.right, String.append_assoc]
  · rw [hnames]
    intro hhole
    have ha : operand .a = [none] := by simpa using hhole
    simp [respelling, ha]

end Rules

/-- Two registers in the other order are no operands. -/
theorem exchange_twin (h : Sides (atom .dollar) x y) (r r' : Reg) :
    RuleTwin x y (Clear [] y) t
      (respelled (line "swp" [theReg r', theReg r]) fun _ => "SWP " ++ inOrder r r') := by
  refine twin_of_action h (by decide) (.cons (tracks_theReg h r') (.cons (tracks_theReg h r) .nil))
    (by simp) fun caps caps' operand _ => ?_
  have hbegins : beginsLine ("SWP " ++ inOrder r r') = true := by
    cases r <;> cases r' <;> decide
  refine .expand_line (ofText ("SWP " ++ inOrder r r'))
    (text_ofText _ _).symm (text_ofText _ _).symm ⟨?_, by simp⟩ (by simp)
  simpa only [List.append_nil] using opened_of_beginsLine hbegins []

/-! ## The table -/

section Table

variable (h : Sides (atom .dollar) x y)

include h

theorem alone_twin (hmnemonic : (lit mnemonic).skips = true) :
    RuleTwin x y (Clear [] y) t (plain (lit mnemonic) op) :=
  show RuleTwin x y (Clear [] y) t (plain (line mnemonic []) op) from
    plain_twin h hmnemonic .nil rfl

theorem control_twin : ∀ rule ∈ control, RuleTwin x y (Clear [] y) t rule := by
  simp only [control, List.forall_mem_append, List.forall_mem_cons, List.forall_mem_map,
    List.not_mem_nil, false_imp_iff, implies_true, and_true]
  refine ⟨⟨⟨⟨⟨⟨?_, ?_, ?_, ?_, ?_⟩, ?_⟩, ?_, ?_⟩, ?_⟩, ?_⟩, ?_⟩
  · exact alone_twin h (by decide)
  · exact alone_twin h (by decide)
  · exact alone_twin h (by decide)
  · exact alone_twin h (by decide)
  · exact alone_twin h (by decide)
  · exact fun r _ => plain_twin h (by decide) (.cons (tracks_theReg h r) .nil) rfl
  · exact alone_twin h (by decide)
  · exact withAddress_twin h (by decide) (.cons (tracks_inSlot h .a) .nil) rfl
  · exact fun r _ => withAddress_twin h (by decide)
      (.cons (tracks_inSlot h .a) (.cons (tracks_theReg h r) .nil)) rfl
  · exact withAddress_twin h (by decide) (.cons (tracks_inSlot h .a) .nil) rfl
  · exact fun r _ => withAddress_twin h (by decide)
      (.cons (tracks_inSlot h .a) (.cons (tracks_theReg h r) .nil)) rfl

theorem exchanges_twin : ∀ rule ∈ exchanges, RuleTwin x y (Clear [] y) t rule := by
  simp only [exchanges, List.forall_mem_flatMap, List.forall_mem_cons, List.not_mem_nil,
    false_imp_iff, implies_true, and_true]
  rintro ⟨r, r'⟩ -
  exact ⟨plain_twin h (by decide) (.cons (tracks_theReg h r) (.cons (tracks_theReg h r') .nil)) rfl,
    exchange_twin h r r'⟩

theorem comparisons_twin {ifZero ifGreater zeroName greaterName : String} {call : Bool}
    (hzero : (lit ifZero).skips = true) (hgreater : (lit ifGreater).skips = true) :
    ∀ rule ∈ comparisons ifZero ifGreater zeroName greaterName call,
      RuleTwin x y (Clear [] y) t rule := by
  have haddress := tracks_inSlot h .a
  have hreg := tracks_theReg h
  simp only [comparisons, List.forall_mem_append, List.forall_mem_cons, List.forall_mem_map,
    List.not_mem_nil, false_imp_iff, implies_true, and_true]
  refine ⟨⟨?_, ?_⟩, ?_, ?_, ?_⟩
  · exact withAddress_twin h hzero (.cons (hreg .x) (.cons haddress .nil)) rfl
  · exact withAddress_twin h hzero (.cons (hreg .z) (.cons haddress .nil)) rfl
  · exact refused_twin h hzero (.cons (tracks_anyReg h .r) (.cons haddress .nil)) (by decide) _ _ _
  · exact withAddress_twin h hgreater
      (.cons (hreg .x) (.cons (hreg .y) (.cons haddress .nil))) rfl
  · exact refused_twin h hgreater
      (.cons (tracks_anyReg h .r) (.cons (tracks_anyReg h .s) (.cons haddress .nil))) (by decide)
      _ _ _

theorem conditionalJumps_twin :
    ∀ rule ∈ conditionalJumps, RuleTwin x y (Clear [] y) t rule := by
  have haddress := tracks_inSlot h .a
  have hreg := tracks_theReg h
  unfold conditionalJumps
  rw [List.forall_mem_append, List.forall_mem_append]
  refine ⟨⟨comparisons_twin h (by decide) (by decide), ?_⟩, ?_⟩
  · simp only [List.forall_mem_flatMap, List.forall_mem_cons, List.not_mem_nil, false_imp_iff,
      implies_true, and_true]
    rintro ⟨r, r'⟩ -
    have hlisted : beginsLine ("JMPEQ " ++ inOrder r r') = true := by
      cases r <;> cases r' <;> decide
    exact ⟨withAddress_twin h (by decide)
        (.cons (hreg r) (.cons (hreg r') (.cons haddress .nil))) rfl,
      respelled_twin h (by decide) (.cons (hreg r') (.cons (hreg r) (.cons haddress .nil))) _
        hlisted rfl⟩
  · simp only [List.forall_mem_cons, List.not_mem_nil, false_imp_iff, implies_true, and_true]
    exact ⟨withAddress_twin h (by decide) (.cons haddress .nil) rfl,
      withAddress_twin h (by decide) (.cons haddress .nil) rfl⟩

theorem conditionalCalls_twin :
    ∀ rule ∈ conditionalCalls, RuleTwin x y (Clear [] y) t rule := by
  have haddress := tracks_inSlot h .a
  have hreg := tracks_theReg h
  unfold conditionalCalls
  rw [List.forall_mem_append, List.forall_mem_append]
  refine ⟨⟨comparisons_twin h (by decide) (by decide), ?_⟩, ?_⟩
  · simp only [List.forall_mem_cons, List.not_mem_nil, false_imp_iff, implies_true, and_true]
    refine ⟨?_, ?_, ?_, ?_, ?_, ?_⟩
    · exact withAddress_twin h (by decide)
        (.cons (hreg .x) (.cons (hreg .y) (.cons haddress .nil))) rfl
    · exact respelled_twin h (by decide)
        (.cons (hreg .y) (.cons (hreg .x) (.cons haddress .nil))) "JSREQ X, Y" (by decide) rfl
    · exact refused_twin h (by decide)
        (.cons (tracks_anyReg h .r) (.cons (tracks_anyReg h .s) (.cons haddress .nil)))
        (by decide) _ _ _
    · exact alone_twin h (by decide)
    · exact alone_twin h (by decide)
    · exact alone_twin h (by decide)
  · simp only [List.forall_mem_map]
    exact fun r _ => withAddress_twin h (by decide) (.cons (hreg r) (.cons haddress .nil)) rfl

theorem transfers_twin : ∀ rule ∈ transfers, RuleTwin x y (Clear [] y) t rule := by
  have hreg := tracks_theReg h
  have ha := tracks_inSlot h .a
  have hb := tracks_inSlot h .b
  have himmediate := tracks_immediate h
  have hpair := tracks_pair h
  simp only [transfers, List.forall_mem_append, List.forall_mem_map, List.forall_mem_cons,
    List.not_mem_nil, false_imp_iff, implies_true, and_true]
  refine ⟨⟨⟨⟨⟨⟨⟨?_, ?_⟩, ?_⟩, ?_⟩, ?_⟩, ?_⟩, ?_⟩, ?_, ?_, ?_, ?_⟩
  · exact fun r _ => withImmediate_twin h (by decide) (.cons (hreg r) (.cons himmediate .nil)) rfl
  · exact fun e _ => plain_twin h (by decide) (.cons (hreg e.1) (.cons (hreg e.2) .nil)) rfl
  · exact fun r _ => withAddress_twin h (by decide) (.cons (hreg r) (.cons ha .nil)) rfl
  · exact fun e _ => withAddress_twin h (by decide)
      (.cons (hreg e.1) (.cons ha (.cons (hreg e.2) .nil))) rfl
  · exact fun r _ => withAddress_twin h (by decide) (.cons (hreg r) (.cons ha .nil)) rfl
  · exact fun e _ => withAddress_twin h (by decide)
      (.cons (hreg e.1) (.cons ha (.cons (hreg e.2) .nil))) rfl
  · exact fun r _ => withBoth_twin h (by decide)
      (.cons himmediate (.cons hb (.cons (hreg r) .nil))) rfl
  · exact withBoth_twin h (by decide) (.cons himmediate (.cons hb .nil)) rfl
  · exact withBoth_twin h (by decide) (.cons himmediate (.cons hb (.cons hpair .nil))) rfl
  · exact withAddress_twin h (by decide) (.cons (hreg .z) (.cons ha (.cons hpair .nil))) rfl
  · exact withAddress_twin h (by decide) (.cons (hreg .z) (.cons ha (.cons hpair .nil))) rfl

theorem arithmetic_twin : ∀ rule ∈ arithmetic, RuleTwin x y (Clear [] y) t rule := by
  have hreg := tracks_theReg h
  have ha := tracks_inSlot h .a
  have hnames : ∀ names ∈ aluNames, (lit names.1).skips = true := by decide
  have honReg {mnemonic : String} (ofReg : Reg → Op) (hmnemonic : (lit mnemonic).skips = true) :
      ∀ r ∈ regs, RuleTwin x y (Clear [] y) t (plain (line mnemonic [theReg r]) (ofReg r)) :=
    fun r _ => plain_twin h hmnemonic (.cons (hreg r) .nil) rfl
  simp only [arithmetic, List.forall_mem_append, List.forall_mem_map, List.forall_mem_cons,
    List.forall_mem_flatMap, List.not_mem_nil, false_imp_iff, implies_true, and_true]
  refine ⟨⟨⟨⟨⟨⟨⟨?_, ?_⟩, ?_⟩, ?_⟩, ?_⟩, ?_⟩, ?_⟩, ?_⟩
  · exact honReg .inc (by decide)
  · exact withAddress_twin h (by decide) (.cons ha .nil) rfl
  · exact honReg .dec (by decide)
  · exact withAddress_twin h (by decide) (.cons ha .nil) rfl
  · intro names hmem
    refine ⟨fun r _ => ?_, fun e _ => ?_⟩
    · exact withImmediate_twin h (hnames _ hmem)
        (.cons (hreg r) (.cons (tracks_immediate h) .nil)) rfl
    · exact plain_twin h (hnames _ hmem) (.cons (hreg e.1) (.cons (hreg e.2) .nil)) rfl
  · exact honReg .lsl (by decide)
  · exact honReg .lsr (by decide)
  · exact honReg .not (by decide)

theorem instructions_twin : ∀ rule ∈ instructions, RuleTwin x y (Clear [] y) t rule := by
  simp only [instructions, List.forall_mem_append]
  exact ⟨⟨⟨⟨⟨control_twin h, exchanges_twin h⟩, conditionalJumps_twin h⟩,
    conditionalCalls_twin h⟩, transfers_twin h⟩, arithmetic_twin h⟩

end Table

/-- The dialect does twin things with lines that differ in pairs. -/
theorem find?_twin (h : Sides (atom .dollar) x y) (ht : Clear [] y t) :
    Option.Rel (ActionTwin x y (Clear [] y) (none ∈ t))
      (Rule.find? dialect.rules (t.fill x)) (Rule.find? dialect.rules (t.fill y)) := by
  have hmore : ∀ rule ∈ ([] : List Rule), rule.pattern.BeginsWith (Text.sameLetter '.') := by simp
  have hfind := ht.1.rel_find? (isName_value .dollar (by decide)) .comma 2 hmore
    (instructions_twin h)
  rwa [List.append_nil] at hfind

end PocketAsm.Bitzzy

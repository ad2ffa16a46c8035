/-
  Proofs/Bitzzy/Instructions.lean --- what is assembled is what is executed.

  A line that is no directive places one instruction: the opcode of an operation
  that does what is written, and the operands (`exists_place_of_yields`).  Its
  bytes are those that the machine reads (`words_of_encodes`), so one step
  carries the line out (`step_of_holds`).
-/
import PocketAsm.Proofs.Bitzzy.Rules
import PocketAsm.Proofs.Bytes

set_option autoImplicit false

namespace PocketAsm.Bitzzy

open Bits

/-! ## Opcodes -/

/-- The machine decodes the opcode of an operation, which is a byte. -/
theorem decode?_of_code? {op : Op} {code : Nat} (h : op.code? = some code) :
    decode? code = some op ∧ code < 256 := by
  have hbyte : ∀ entry ∈ opcodes, entry.2 < 256 := by decide +kernel
  obtain ⟨before, after, hsplit, -⟩ := List.lookup_eq_some_iff.mp h
  have hmem : (op, code) ∈ opcodes := by simp [hsplit]
  exact ⟨decode?_of_mem _ hmem, hbyte _ hmem⟩

namespace Op

/-- The bytes of an instruction: its opcode, its address with the upper byte first, and its
immediate data. -/
def bytes (op : Op) (code a i : Nat) : List Nat :=
  code :: ((if op.takesAddress then [a / 256, a % 256] else []) ++
    if op.takesImmediate then [i] else [])

theorem length_bytes (op : Op) (code a i : Nat) : (op.bytes code a i).length = op.size := by
  unfold bytes size
  cases op.takesAddress <;> cases op.takesImmediate <;> rfl

end Op

/-- Where memory holds the bytes of an instruction, one step has its effect. -/
theorem step_of_holds {s : State} (hs : s.WellFormed) {op : Op} {code a i : Nat}
    (hcode : op.code? = some code) (ha : a < 65536) (hi : i < 256)
    (h : s.Holds (op.bytes code a i)) : step s = .ok (op.effect s a i op.size) := by
  have hopcode : s.byte s.pc = code := h 0 code rfl
  refine step_eq_effect hs (hopcode ▸ (decode?_of_code? hcode).1) ha hi ?_ ?_
  · intro haddress
    rw [h 1 (a / 256) (by simp [Op.bytes, haddress]), h 2 (a % 256) (by simp [Op.bytes, haddress])]
    omega
  · intro himmediate
    refine h _ i ?_
    cases haddress : op.takesAddress <;> simp [Op.bytes, haddress, himmediate]

/-! ## Fields -/

section Fields

variable {p : Program} {symbols : Symbols} {bits : Bits} {op : Op} {statement : Statement}

/-- The value of an operand in a program. -/
def valueOf (p : Program) (symbols : Symbols) (text : String) : Option Int :=
  dialect.operandValue? p symbols text false

/-- A field of an operand holds its value. -/
theorem operand?_of_encodesField {text : String} {width : Nat}
    (h : dialect.EncodesField p symbols (.value text width false false) bits) :
    Statement.operand? (valueOf p symbols) (span width) (some text) = some (toNat bits) ∧
      bits.length = width := by
  obtain ⟨n, hvalue, hnumber, hlength⟩ := Dialect.exists_emod_of_encodesField h
  refine ⟨?_, hlength⟩
  simp only [Statement.operand?, valueOf, hvalue, Option.map_some, hnumber]

/-- The address, if there is one, fills two bytes. -/
theorem exists_address_of_encodes {text? : Option String} {fields : List Field}
    (h : dialect.Encodes p symbols
      ((text?.toList.map fun text => Field.value text 16 false false) ++ fields) bits) :
    ∃ a rest, Statement.operand? (valueOf p symbols) 65536 text? = some a ∧ a < 65536 ∧
      dialect.Encodes p symbols fields rest ∧
      words 8 bits = (if text?.isSome then [a / 256, a % 256] else []) ++ words 8 rest := by
  cases text? with
  | none => exact ⟨0, bits, rfl, by decide, h, rfl⟩
  | some text =>
    obtain ⟨first, rest, rfl, hfield, hrest⟩ := h
    obtain ⟨hvalue, hlength⟩ := operand?_of_encodesField hfield
    exact ⟨toNat first, rest, hvalue, toNat_lt_of_length hlength, hrest,
      words_append_double (by decide) hlength rest⟩

/-- The immediate data, if there are any, fill a byte. -/
theorem exists_immediate_of_encodes {text? : Option String}
    (h : dialect.Encodes p symbols (text?.toList.map fun text => .value text 8 false false) bits) :
    ∃ i, Statement.operand? (valueOf p symbols) 256 text? = some i ∧ i < 256 ∧
      words 8 bits = if text?.isSome then [i] else [] := by
  cases text? with
  | none =>
    obtain rfl : bits = [] := h
    exact ⟨0, rfl, by decide, rfl⟩
  | some text =>
    obtain ⟨first, rest, rfl, hfield, rfl⟩ := h
    obtain ⟨hvalue, hlength⟩ := operand?_of_encodesField hfield
    exact ⟨toNat first, hvalue, toNat_lt_of_length hlength, words_append (by decide) hlength []⟩

/-- The words of the fields of a statement are the bytes of the instruction. -/
theorem words_of_encodes (hop : statement.CodedBy op)
    (h : dialect.Encodes p symbols (statement.fields op) bits) :
    ∃ code a i, op.code? = some code ∧
      Statement.operand? (valueOf p symbols) 65536 statement.address? = some a ∧ a < 65536 ∧
      Statement.operand? (valueOf p symbols) 256 statement.immediate? = some i ∧ i < 256 ∧
      words 8 bits = op.bytes code a i := by
  obtain ⟨first, rest, rfl, hopcode, hrest⟩ := h
  obtain ⟨a, rest', ha, halt, hrest', haddress⟩ := exists_address_of_encodes hrest
  obtain ⟨i, hi, hilt, himmediate⟩ := exists_immediate_of_encodes hrest'
  obtain ⟨code, hcode⟩ := Option.isSome_iff_exists.mp hop.coded.code
  obtain rfl : first = ofNat 8 code := by simpa [opcode, hcode] using hopcode
  have hbyte : code % span 8 = code := Nat.mod_eq_of_lt (decode?_of_code? hcode).2
  refine ⟨code, a, i, hcode, ha, halt, hi, hilt, ?_⟩
  rw [words_append (by decide) (length_ofNat 8 code), toNat_ofNat, hbyte, haddress, himmediate,
    Op.bytes, hop.coded.address, hop.coded.immediate]

end Fields

/-! ## Lines -/

section Lines

variable {p : Program} {symbols : Symbols} {bits : Bits} {parts : List Part} {words : Nat}
  {source : Source} {edits : List Edit}

theorem wellFormed : dialect.WellFormed 4 := Architecture.wellFormed List.mem_cons_self

/-- A statement that does the same is carried out by the same instruction. -/
theorem Statement.CodedBy.of_same {op : Op} {statement statement' : Statement}
    (h : statement'.CodedBy op) (hsame : statement'.Same statement) :
    statement.CodedBy op ∧ statement'.fields op = statement.fields op :=
  ⟨⟨hsame.address ▸ hsame.immediate ▸ h.coded, h.same.trans hsame.op⟩, by
    rw [Statement.fields, Statement.fields, hsame.address, hsame.immediate]⟩

/-- What is done with a line that is no directive and is assembled agrees with its reading. -/
theorem agrees_of_assembles {levels : Nat} {text : String} {address : Nat}
    (h : dialect.Assembles p symbols levels text address bits) (htext : Unpointed text) :
    ∃ action, Rule.find? dialect.rules text.toList = some action ∧
      Agrees (Statement.read? text) action := by
  obtain ⟨action, hfind, hall⟩ := h.find?_eq wellFormed rfl
    (Directive.isDirective_of_mem_common _ _ _) htext
  have hagrees := instructions_read.of_find? (by simp) hfind
  rw [String.ofList_toList] at hagrees
  exact ⟨action, hall, hagrees⟩

/-- A line that is no directive and places an instruction places one only, which codes what the line
reads as. -/
theorem exists_place_of_yields {levels : Nat} {text : String}
    (h : dialect.Yields p levels text edits) (hplace : .place parts words source ∈ edits)
    (hbits : symbols.partsBits parts = .ok bits) (htext : Unpointed text) :
    ∃ statement op, Statement.read? text = some statement ∧ statement.CodedBy op ∧
      edits = [.place parts op.size source] ∧
      dialect.Encodes p symbols (statement.fields op) bits := by
  -- a line that is spelled anew is one level of expansions deeper
  induction levels using Nat.strong_induction_on generalizing text with
  | h levels ih =>
    obtain ⟨address, hassembles⟩ := h.assembles hplace hbits
    have hne := hassembles.ne_empty
    obtain ⟨action, hfind, hagrees⟩ := agrees_of_assembles hassembles htext
    cases action with
    | emit fields count mark =>
      obtain ⟨statement, op, hread, hop, rfl, rfl⟩ := hagrees
      obtain ⟨found, origin, hparts, rfl⟩ := h.of_emit hne hfind
      obtain ⟨rfl, rfl, rfl⟩ : parts = found ∧ words = op.size ∧ source = origin := by
        simpa using hplace
      exact ⟨statement, op, hread, hop, rfl, Dialect.encodes_of_partsBits hparts hbits⟩
    | expand lines =>
      obtain ⟨line, statement, statement', rfl, hread, hline, hsame⟩ := hagrees
      obtain ⟨further, rfl, hyields⟩ := h.of_expand hne hfind
      obtain ⟨found, op, hfound, hop, hedits, hencodes⟩ := ih further (by omega) hyields
        (wellFormed.action hfind line (by simp))
      obtain rfl : found = statement' := Option.some.inj (hfound.symm.trans hline)
      obtain ⟨hop', hfields⟩ := hop.of_same hsame
      exact ⟨statement, op, hread, hop', hedits, hfields ▸ hencodes⟩
    | reject fault => exact (h.not_reject hne hfind).elim
    | _ => exact hagrees.elim

/-- Every instruction of the output that a line other than a directive was assembled to: the line
reads as a statement, reserves the bytes of the instruction, and in every state whose memory holds
these at the program counter, one step has the effect of the statement, where operands have the
values that they have on the line.  In particular no opcode is unknown to the machine. -/
theorem line_is_carried_out {text : String} {address : Nat}
    (h : .instruction address bits source ∈ (dialect.assemble text).lines)
    (htext : Unpointed (dialect.instructionAt text source.line)) :
    ∃ statement, Statement.read? (dialect.instructionAt text source.line) = some statement ∧
      dialect.reservedAt text source.line = (Bits.words 8 bits).length ∧
      ∀ s : State, s.WellFormed → s.Holds (Bits.words 8 bits) →
        ∃ s', statement.effect? (dialect.valueAt? text source.line) s
            (dialect.reservedAt text source.line) = some s' ∧ step s = .ok s' := by
  obtain ⟨hfault, before, parts, words, after, hedits, -, hbits⟩ :=
    Dialect.exists_place_of_mem_assemble_line wellFormed h
  have hmem : .place parts words source ∈ (dialect.outcomeAt text source.line).edits := by
    simp [hedits]
  obtain ⟨statement, op, hread, hop, hplace, hencodes⟩ :=
    exists_place_of_yields (Dialect.yields_of_fault hfault) hmem hbits htext
  have hreserved := Dialect.reservedAt_of_place hfault hplace
  obtain ⟨code, a, i, hcode, ha, halt, hi, hilt, hwords⟩ := words_of_encodes hop hencodes
  refine ⟨statement, hread, ?_, fun s hs hholds => ?_⟩
  · rw [hreserved, hwords, Op.length_bytes]
  · refine ⟨statement.op.effect s a i op.size, ?_, ?_⟩
    · have hvalue : dialect.valueAt? text source.line =
          valueOf (dialect.programBefore text source.line)
            (dialect.symbols (dialect.firstPass text).1) := rfl
      simp [Statement.effect?, hvalue, hreserved, ha, hi]
    · rw [step_of_holds hs hcode halt hilt (hwords ▸ hholds), hop.same.effect]

/-- A store of immediate data puts them where the address and the index say. -/
theorem indexed_store_is_carried_out :
    let text := "STR #-1, (table - 1), X\ntable:"
    let bits := [0xD0, 0, 3, 0xFF].flatMap (ofNat 8)
    let line := "STR #-1, (table - 1), X"
    let s : State :=
      ⟨Memory.empty.writeAll [(0, 0xD0), (2, 3), (3, 0xFF)], ⟨5, 0, 0⟩, 0, 0xFFFF, 0, 0, true⟩
    .instruction 0 bits ⟨0, line, line, line⟩ ∈ (dialect.assemble text).lines ∧ s.WellFormed ∧
      s.Holds (Bits.words 8 bits) ∧
      ∃ s', step s = .ok s' ∧ s'.pc = 4 ∧ ∀ address, s'.byte address =
        if address % 65536 = 8 then 0xFF else s.byte address := by
  intro text bits line s
  obtain ⟨hline, hunpointed, hstore, haddress, himmediate⟩ :
      .instruction 0 bits ⟨0, line, line, line⟩ ∈ (dialect.assemble text).lines ∧
        Unpointed (dialect.instructionAt text 0) ∧
        Statement.read? (dialect.instructionAt text 0) =
          some ⟨.storeImmediate (.reg .x), some "(table - 1)", some "-1"⟩ ∧
        dialect.valueAt? text 0 "(table - 1)" = some 3 ∧
        dialect.valueAt? text 0 "-1" = some (-1) := by
    decide +kernel
  have hread (address : Int) : s.memory.read address =
      if address = 3 then 0xFF else if address = 2 then 3 else if address = 0 then 0xD0 else 0 := by
    simp only [s, Memory.writeAll, List.foldl_cons, List.foldl_nil, Memory.read_write, eq_comm]
    rfl
  have hs : s.WellFormed := by
    refine ⟨fun r => by cases r <;> decide, fun address => ?_, by decide, by decide, by decide⟩
    rw [hread]
    split_ifs <;> decide
  have hwords : Bits.words 8 bits = [0xD0, 0, 3, 0xFF] := by decide +kernel
  have hholds : s.Holds (Bits.words 8 bits) := by
    rw [hwords]
    intro k byte hk
    rw [State.byte, hread]
    rcases k with _ | _ | _ | _ | k
    all_goals first | exact Option.some.inj hk | simp at hk
  obtain ⟨statement, hstatement, hreserved, hstep⟩ := line_is_carried_out hline hunpointed
  obtain ⟨s', heffect, hok⟩ := hstep s hs hholds
  obtain rfl := Option.some.inj (hstatement.symm.trans hstore)
  rw [hreserved, hwords] at heffect
  obtain rfl : Op.effect s 3 0xFF 4 (.storeImmediate (.reg .x)) = s' := by
    simpa [Statement.effect?, Statement.operand?, haddress, himmediate] using heffect
  refine ⟨hline, hs, hholds, _, hok, rfl, fun address => ?_⟩
  have hstores : Op.stores s 3 0xFF (.storeImmediate (.reg .x)) = [(8, 0xFF)] := rfl
  simp only [State.byte, Op.effect, Op.flow, Flow.stores, hstores, List.append_nil, Memory.writeAll,
    List.foldl_cons, List.foldl_nil, Memory.read_write]
  split_ifs <;> first | rfl | omega

end Lines

end PocketAsm.Bitzzy

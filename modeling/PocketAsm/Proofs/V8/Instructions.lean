/-
  Proofs/V8/Instructions.lean --- what is assembled is what is executed.

  A line that is no directive places one instruction, whose bytes are those of
  the statement that the line reads as (`exists_place_of_yields`).  Where memory
  holds these bytes at the program counter, one step has the effect of the
  statement (`step_of_codedAs`).
-/
import PocketAsm.Proofs.V8.Rules

set_option autoImplicit false

namespace PocketAsm.V8

open Bits

theorem Statement.CodedAs.length {value : String → Option Int} {bytes : List Nat}
    {statement : Statement} (h : statement.CodedAs value bytes) :
    bytes.length = statement.op.size := by
  obtain ⟨op, operand?⟩ := statement
  cases operand? with
  | none =>
    obtain ⟨hop, rfl⟩ := h
    simp [Op.size, hop]
  | some text =>
    obtain ⟨hop, n, -, rfl⟩ := h
    simp [Op.size, hop]

/-- Where memory holds the bytes of a statement, one step has its effect. -/
theorem step_of_codedAs {s : State} (hs : s.WellFormed) {value : String → Option Int}
    {bytes : List Nat} {statement : Statement} (h : statement.CodedAs value bytes)
    (hholds : s.Holds bytes) :
    statement.effect? value s statement.op.size = some (step s) := by
  obtain ⟨op, operand?⟩ := statement
  cases operand? with
  | none =>
    obtain ⟨hop, rfl⟩ := h
    have hcode : s.read s.pc = op.code := hholds 0 _ rfl
    rw [step_eq_effect (v := 0) hs hcode (by simp [hop])]
    rfl
  | some text =>
    obtain ⟨hop, n, hvalue, rfl⟩ := h
    have hcode : s.read s.pc = op.code := hholds 0 _ rfl
    have hoperand : s.read (s.pc + 1) = (n % 256).toNat := hholds 1 _ rfl
    rw [step_eq_effect hs hcode fun _ => hoperand]
    simp [Statement.effect?, hvalue]

section Lines

variable {p : Program} {symbols : Symbols} {bits : Bits} {parts : List Part} {words : Nat}
  {source : Source} {edits : List Edit}

theorem wellFormed : dialect.WellFormed 2 :=
  Architecture.wellFormed (List.mem_cons_of_mem _ List.mem_cons_self)

/-- A line that is no directive and places an instruction places one only, which codes what the line
reads as. -/
theorem exists_place_of_yields {levels : Nat} {text : String}
    (h : dialect.Yields p levels text edits) (hplace : .place parts words source ∈ edits)
    (hbits : symbols.partsBits parts = .ok bits) (htext : Unpointed text) :
    ∃ statement, Statement.read? text = some statement ∧
      edits = [.place parts statement.op.size source] ∧
      statement.CodedAs (valueOf p symbols) (Bits.words 8 bits) := by
  obtain ⟨address, hassembles⟩ := h.assembles hplace hbits
  obtain ⟨action, hfind, hall⟩ := hassembles.find?_eq wellFormed rfl
    (Directive.isDirective_of_mem_common _ _ _) htext
  have hagrees := instructions_read.of_find? (by simp) hfind
  rw [String.ofList_toList] at hagrees
  cases action with
  | emit fields count mark =>
    obtain ⟨found, origin, hparts, rfl⟩ := h.of_emit hassembles.ne_empty hall
    obtain ⟨rfl, rfl, rfl⟩ : parts = found ∧ words = count ∧ source = origin := by
      simpa using hplace
    obtain ⟨statement, hread, rfl, hcodes⟩ :=
      hagrees p symbols bits (Dialect.encodes_of_partsBits hparts hbits)
    exact ⟨statement, hread, rfl, hcodes⟩
  | _ => exact hagrees.elim

/-- Every instruction of the output that a line other than a directive was assembled to: the line
reads as a statement, reserves the bytes of the instruction, and in every state whose memory holds
these at the program counter, one step has the effect of the statement, where the operand has the
value that it has on the line. -/
theorem step_performs_line {text : String} {address : Nat}
    (h : .instruction address bits source ∈ (dialect.assemble text).lines)
    (htext : Unpointed (dialect.instructionAt text source.line)) :
    ∃ statement, Statement.read? (dialect.instructionAt text source.line) = some statement ∧
      dialect.reservedAt text source.line = (Bits.words 8 bits).length ∧
      ∀ s : State, s.WellFormed → s.Holds (Bits.words 8 bits) →
        statement.effect? (dialect.valueAt? text source.line) s (Bits.words 8 bits).length =
          some (step s) := by
  obtain ⟨hfault, before, parts, words, after, hedits, -, hbits⟩ :=
    Dialect.exists_place_of_mem_assemble_line wellFormed h
  have hmem : .place parts words source ∈ (dialect.outcomeAt text source.line).edits := by
    simp [hedits]
  obtain ⟨statement, hread, hplace, hcodes⟩ :=
    exists_place_of_yields (Dialect.yields_of_fault hfault) hmem hbits htext
  have hlength := hcodes.length
  refine ⟨statement, hread, ?_, fun s hs hholds => ?_⟩
  · rw [hlength, Dialect.reservedAt_of_place hfault hplace]
  · rw [hlength]
    exact step_of_codedAs hs hcodes hholds

/-- A load in indirect mode goes through the address that is stored at its operand. -/
theorem indirect_load_is_performed :
    let text := "LDX (pointer)\npointer:\n.data $30"
    let bits := [0xAE, 2].flatMap (ofNat 8)
    let line := "LDX (pointer)"
    let s : State :=
      ⟨Memory.empty.writeAll [(0, 0xAE), (1, 2), (2, 0x30), (0x30, 0x55)], .cleared, 0, 0, true,
        true, true⟩
    .instruction 0 bits ⟨0, line, line, line⟩ ∈ (dialect.assemble text).lines ∧ s.WellFormed ∧
      s.Holds (Bits.words 8 bits) ∧ (step s).pc = 2 ∧ (step s).zero = false ∧
      ∀ r, (step s).reg r = if r = 6 then 0x55 else 0 := by
  intro text bits line s
  obtain ⟨hline, hunpointed, hload, hvalue⟩ :
      .instruction 0 bits ⟨0, line, line, line⟩ ∈ (dialect.assemble text).lines ∧
        Unpointed (dialect.instructionAt text 0) ∧
        Statement.read? (dialect.instructionAt text 0) =
          some ⟨.load 6 .indirect, some "pointer"⟩ ∧
        dialect.valueAt? text 0 "pointer" = some 2 := by
    decide +kernel
  have hread (address : Int) : s.memory.read address =
      if address = 0x30 then 0x55 else if address = 2 then 0x30 else if address = 1 then 2
        else if address = 0 then 0xAE else 0 := by
    simp only [s, Memory.writeAll, List.foldl_cons, List.foldl_nil, Memory.read_write, eq_comm]
    rfl
  have hreg : ∀ r : RegisterIndex, RegisterFile.cleared.get r = 0 := by decide
  have hs : s.WellFormed := by
    refine ⟨fun r => (hreg r).trans_lt (by decide), fun address => ?_, by decide⟩
    rw [hread]
    split_ifs <;> decide
  have hwords : Bits.words 8 bits = [0xAE, 2] := by decide +kernel
  have hholds : s.Holds (Bits.words 8 bits) := by
    rw [hwords]
    intro k byte hk
    rw [State.read, hread]
    rcases k with _ | _ | k
    all_goals first | exact Option.some.inj hk | simp at hk
  obtain ⟨statement, hstatement, -, hstep⟩ := step_performs_line hline hunpointed
  have heffect := hstep s hs hholds
  obtain rfl := Option.some.inj (hstatement.symm.trans hload)
  rw [hwords] at heffect
  have hstate : step s = Op.effect s 2 2 (.load 6 .indirect) := by
    simpa [Statement.effect?, hvalue, eq_comm] using heffect
  have hbyte : s.read (Mode.address s 2 .indirect) = 0x55 := by
    simp only [Mode.address, State.read, hread]
    rfl
  rw [hstate]
  refine ⟨hline, hs, hholds, rfl, ?_, fun r => ?_⟩
  · simp [Op.effect, Op.zero, hbyte]
  · have hset : (Op.effect s 2 2 (.load 6 .indirect)).reg r = (s.registers.set 6 0x55).get r := by
      simp [State.reg, Op.effect, Op.sets, hbyte]
    rw [hset, RegisterFile.get_set, hreg]
    simp only [eq_comm]

end Lines

end PocketAsm.V8

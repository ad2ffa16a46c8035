/-
  Proofs/V8/Multibyte.lean --- arithmetic on numbers of several bytes.

  A load keeps the carry; an addition, a subtraction or a shift takes it in and
  gives a new one out.  So the lines that treat one byte have a law in which
  only the carry links them to the byte before and the byte behind
  (`add_law`, `subtract_law`, `double_law`, `halve_law`).  Where such blocks
  follow one another the carries in between cancel, upwards (`Passes.upwards`)
  as well as downwards (`Passes.downwards`), and what is left is the law of the
  whole numbers (`multibyte_arithmetic`).
-/
import PocketAsm.Proofs.V8.Immediates
import PocketAsm.Proofs.V8.Ranges

set_option autoImplicit false

namespace PocketAsm.V8

/-! ## Executing lines -/

/-- The machine executes the code of a line: it has come to a place where memory holds the code,
with the registers and the carry of the first state, and makes a step to the second one.  Where the
code lies and how the machine came there is left open. -/
def Executes (line : String) (s t : State) : Prop :=
  ∃ u : State, u.WellFormed ∧ u.registers = s.registers ∧ u.carry = s.carry ∧
    codeOf line ≠ [] ∧ u.Holds (codeOf line) ∧ step u = t

/-- The machine executes some lines one after the other. -/
def ExecutesAll : List String → State → State → Prop
  | [], s, t => s = t
  | line :: lines, s, t => ∃ u, Executes line s u ∧ ExecutesAll lines u t

/-- The machine executes blocks of lines one after the other and is in these states behind them. -/
def Passes : List (List String) → State → List State → Prop
  | [], _, ts => ts = []
  | block :: blocks, s, ts =>
    ∃ t rest, ts = t :: rest ∧ ExecutesAll block s t ∧ Passes blocks t rest

/-- The states behind blocks of lines that are executed in one run. -/
def stops : List (List String) → State → List State
  | [], _ => []
  | block :: blocks, s => step^[block.length] s :: stops blocks (step^[block.length] s)

/-! ## Straight lines -/

/-- The line is assembled to an operation, which stores nothing and goes on behind itself. -/
structure StraightAs (line : String) (op : Op) (operand : List Nat) : Prop where
  code : codeOf line = op.code :: operand
  size : operand.length + 1 = op.size
  bytes : ∀ byte ∈ operand, byte < 256
  stores : ∀ s v size, op.stores s v size = []
  next : ∀ s v size, op.pc s v size = (s.pc + size) % 256

/-- The line is assembled to an operation that does nothing to the flow of the program. -/
def IsStraight (line : String) : Prop := ∃ op operand, StraightAs line op operand

theorem Op.code_lt (op : Op) : op.code < 256 := by
  cases op with
  | jump condition => cases condition <;> decide
  | withA alu r => revert r; cases alu <;> decide
  | unary f r => revert r; cases f <;> decide
  | load r mode => revert r; cases mode <;> decide
  | store r mode => revert r; cases mode <;> decide
  | compare r | loadImmediate r | push r | pull r => revert r; decide
  | move destination r => revert destination r; decide
  | _ => decide

theorem State.holds_iff {s : State} {bytes : List Nat} :
    s.Holds bytes ↔ (List.range bytes.length).map (fun k => s.read (s.pc + k)) = bytes := by
  constructor
  · intro h
    refine List.ext_getElem (by simp) fun k hk hk' => ?_
    rw [List.getElem_map, List.getElem_range]
    exact h k _ (List.getElem?_eq_getElem hk')
  · intro h k byte hbyte
    obtain ⟨hk, rfl⟩ := List.getElem?_eq_some_iff.mp hbyte
    simpa [hk] using congrArg (·[k]?) h

instance {s : State} {bytes : List Nat} : Decidable (s.Holds bytes) :=
  decidable_of_iff _ State.holds_iff.symm

theorem State.InRange.wellFormed {s : State} (h : s.InRange) : s.WellFormed :=
  ⟨h.registers, Memory.read_lt (by decide) fun entry hentry => (h.memory entry hentry).2.2, h.pc⟩

section Straight

variable {line : String} {lines : List String} {blocks : List (List String)} {op : Op}
  {operand rest : List Nat} {s t : State}

/-- Where memory holds the code of the line, a step has the effect of the operation. -/
theorem StraightAs.step_eq (hline : StraightAs line op operand) (hs : s.WellFormed)
    (hholds : s.Holds (codeOf line)) : step s = op.effect s (operand.headD 0) op.size := by
  rw [hline.code] at hholds
  refine step_eq_effect hs (hholds 0 _ rfl) fun htakes => ?_
  have hlength := hline.size
  rw [Op.size, if_pos htakes] at hlength
  obtain ⟨v, rfl⟩ := List.length_eq_one_iff.mp (Nat.succ.inj hlength)
  exact hholds 1 v rfl

/-- What is executed has the effect of the operation, apart from where the code lies. -/
theorem StraightAs.effect (hline : StraightAs line op operand) (h : Executes line s t) :
    ∃ u : State, u.registers = s.registers ∧ u.carry = s.carry ∧
      t = op.effect u (operand.headD 0) op.size := by
  obtain ⟨u, hu, hregisters, hcarry, -, hholds, rfl⟩ := h
  exact ⟨u, hregisters, hcarry, hline.step_eq hu hholds⟩

/-- A line can be executed from every state whose registers hold bytes, and they still do. -/
theorem StraightAs.exists_executes (hline : StraightAs line op operand)
    (hs : ∀ r, s.reg r < 256) : ∃ t, Executes line s t ∧ ∀ r, t.reg r < 256 := by
  have hlength : operand.length ≤ 1 := by
    have hsize := hline.size
    rw [Op.size] at hsize
    split at hsize <;> omega
  -- the code lies at the beginning of a memory that holds nothing else
  let words : List (Int × Nat) := [(0, op.code), (1, operand.headD 0)]
  let u : State := { s with memory := Memory.empty.writeAll words, pc := 0 }
  have hoperand : operand.headD 0 < 256 := by
    cases operand with
    | nil => decide
    | cons v rest => exact hline.bytes v List.mem_cons_self
  have hu : u.InRange := by
    refine ⟨hs, Memory.forall_writeAll_empty fun word hword => ?_, Nat.zero_lt_succ 255⟩
    rcases List.mem_pair.mp hword with rfl | rfl
    · exact ⟨by simp, by simp, op.code_lt⟩
    · exact ⟨by simp, by simp, hoperand⟩
  have hread (address : Int) : u.memory.read address =
      if 1 = address then operand.headD 0 else if 0 = address then op.code else 0 := by
    simp only [u, words, Memory.writeAll, List.foldl_cons, List.foldl_nil, Memory.read_write,
      Memory.read_empty]
  have hholds : u.Holds (codeOf line) := by
    rw [hline.code]
    intro k byte hbyte
    rw [State.read, hread]
    rcases k with _ | _ | k
    · exact Option.some.inj hbyte
    · cases operand with
      | nil => cases hbyte
      | cons v rest => exact Option.some.inj hbyte
    · have hshort := (List.getElem?_eq_some_iff.mp hbyte).1
      rw [List.length_cons] at hshort
      omega
  have hne : codeOf line ≠ [] := by simp [hline.code]
  exact ⟨step u, ⟨u, hu.wellFormed, rfl, rfl, hne, hholds, rfl⟩, (inRange_step hu).registers⟩

/-- Blocks of straight lines can be executed from every state whose registers hold bytes. -/
theorem exists_executesAll (hlines : ∀ line ∈ lines, IsStraight line) (hs : ∀ r, s.reg r < 256) :
    ∃ t, ExecutesAll lines s t ∧ ∀ r, t.reg r < 256 := by
  induction lines generalizing s with
  | nil => exact ⟨s, rfl, hs⟩
  | cons line lines ih =>
    obtain ⟨⟨op, operand, hline⟩, hlines⟩ := List.forall_mem_cons.mp hlines
    obtain ⟨u, hu, hregisters⟩ := hline.exists_executes hs
    obtain ⟨t, ht, hregisters⟩ := ih hlines hregisters
    exact ⟨t, ⟨u, hu, ht⟩, hregisters⟩

theorem exists_passes (hblocks : ∀ block ∈ blocks, ∀ line ∈ block, IsStraight line)
    (hs : ∀ r, s.reg r < 256) : ∃ ts, Passes blocks s ts := by
  induction blocks generalizing s with
  | nil => exact ⟨[], rfl⟩
  | cons block blocks ih =>
    obtain ⟨hblock, hblocks⟩ := List.forall_mem_cons.mp hblocks
    obtain ⟨t, ht, hregisters⟩ := exists_executesAll hblock hs
    obtain ⟨ts, hts⟩ := ih hblocks hregisters
    exact ⟨t :: ts, t, ts, rfl, ht, hts⟩

/-! ## Runs -/

/-- Behind a line memory holds what it held behind the code of the line. -/
theorem StraightAs.holds_step (hline : StraightAs line op operand) (hs : s.WellFormed)
    (h : s.Holds (codeOf line ++ rest)) : (step s).Holds rest := by
  have hcode : s.Holds (codeOf line) := fun k byte hbyte =>
    h k byte (by rw [List.getElem?_append_left (List.getElem?_eq_some_iff.mp hbyte).1, hbyte])
  rw [hline.step_eq hs hcode]
  intro k byte hbyte
  have hlength : (codeOf line).length = op.size := by rw [hline.code, ← hline.size]; rfl
  have hbehind := h (op.size + k) byte (by
    rw [← hlength, List.getElem?_append_right (Nat.le_add_right _ _), Nat.add_sub_cancel_left,
      hbyte])
  have hmemory : (op.effect s (operand.headD 0) op.size).memory = s.memory := by
    rw [Op.effect, hline.stores]
    rfl
  have hpc : (op.effect s (operand.headD 0) op.size).pc = (s.pc + op.size) % 256 :=
    hline.next _ _ _
  rw [State.read] at hbehind ⊢
  rw [hmemory, hpc, Nat.mod_add_mod, Nat.add_assoc, hbehind]

/-- Where memory holds the code of straight lines, one step for each line executes them. -/
theorem executesAll_of_holds (hlines : ∀ line ∈ lines, IsStraight line) (hs : s.InRange)
    (h : s.Holds (lines.flatMap codeOf ++ rest)) :
    ExecutesAll lines s (step^[lines.length] s) ∧ (step^[lines.length] s).InRange ∧
      (step^[lines.length] s).Holds rest := by
  induction lines generalizing s with
  | nil => exact ⟨rfl, hs, h⟩
  | cons line lines ih =>
    obtain ⟨⟨op, operand, hline⟩, hlines⟩ := List.forall_mem_cons.mp hlines
    rw [List.flatMap_cons, List.append_assoc] at h
    obtain ⟨hrun, hrange, hrest⟩ := ih hlines (inRange_step hs) (hline.holds_step hs.wellFormed h)
    have hcode : s.Holds (codeOf line) := fun k byte hbyte =>
      h k byte (by rw [List.getElem?_append_left (List.getElem?_eq_some_iff.mp hbyte).1, hbyte])
    have hne : codeOf line ≠ [] := by simp [hline.code]
    exact ⟨⟨step s, ⟨s, hs.wellFormed, rfl, rfl, hne, hcode, rfl⟩, hrun⟩, hrange, hrest⟩

/-- Where memory holds the code of blocks of straight lines, a run passes through them. -/
theorem passes_of_holds (hblocks : ∀ block ∈ blocks, ∀ line ∈ block, IsStraight line)
    (hs : s.InRange) (h : s.Holds (blocks.flatten.flatMap codeOf)) :
    Passes blocks s (stops blocks s) := by
  induction blocks generalizing s with
  | nil => rfl
  | cons block blocks ih =>
    obtain ⟨hblock, hblocks⟩ := List.forall_mem_cons.mp hblocks
    rw [List.flatten_cons, List.flatMap_append] at h
    obtain ⟨hrun, hrange, hrest⟩ := executesAll_of_holds hblock hs h
    exact ⟨_, _, rfl, hrun, ih hblocks hrange hrest⟩

end Straight

/-! ## The operations -/

section Operations

variable {line : String} {s t : State}

/-- A load sets its register and keeps the carry. -/
theorem Executes.load {r : RegisterIndex} {x : Nat} (h : Executes line s t)
    (hline : StraightAs line (.loadImmediate r) [x]) :
    (∀ q, t.reg q = if r = q then x else s.reg q) ∧ t.carry = s.carry := by
  obtain ⟨u, hregisters, hcarry, rfl⟩ := hline.effect h
  refine ⟨fun q => ?_, hcarry⟩
  have hset : ((Op.loadImmediate r).effect u x 2).reg q = (u.registers.set r x).get q := rfl
  rw [RegisterFile.get_set, hregisters] at hset
  exact hset

/-- An operation on a register and the accumulator takes the carry in and gives one out. -/
theorem Executes.withA {alu : Alu} {r : RegisterIndex} (h : Executes line s t)
    (hline : StraightAs line (.withA alu r) []) :
    t.a = alu.result (s.reg r) s.a s.carry.toNat ∧
      t.carry = alu.carry (s.reg r) s.a s.carry.toNat := by
  obtain ⟨u, hregisters, hcarry, rfl⟩ := hline.effect h
  have hset : ((Op.withA alu r).effect u 0 1).a = (u.registers.set accumulator
      (alu.result (u.reg r) u.a u.carry.toNat)).get accumulator := rfl
  simp only [State.a, State.reg, ← hregisters, ← hcarry] at hset ⊢
  rw [RegisterFile.get_set, if_pos rfl] at hset
  exact ⟨hset, rfl⟩

/-- An operation on a register takes the carry in and gives one out. -/
theorem Executes.unary {f : Unary} {r : RegisterIndex} (h : Executes line s t)
    (hline : StraightAs line (.unary f r) []) :
    t.reg r = f.result (s.reg r) s.carry.toNat ∧ t.carry = f.carry (s.reg r) := by
  obtain ⟨u, hregisters, hcarry, rfl⟩ := hline.effect h
  have hset : ((Op.unary f r).effect u 0 1).reg r =
      (u.registers.set r (f.result (u.reg r) u.carry.toNat)).get r := rfl
  simp only [State.reg, ← hregisters, ← hcarry] at hset ⊢
  rw [RegisterFile.get_set, if_pos rfl] at hset
  exact ⟨hset, rfl⟩

end Operations

/-! ## Blocks for one byte -/

/-- A byte. -/
abbrev Byte : Type := Fin 256

/-- The register B. -/
def registerB : RegisterIndex := 1

/-- The value of the register B. -/
def State.b (s : State) : Nat := s.reg registerB

/-- Loads two bytes and adds them with the carry. -/
def addBlock (p : Byte × Byte) : List String :=
  ["LDB #" ++ toString p.1.val, "LDA #" ++ toString p.2.val, "ADC B,A"]

/-- Loads two bytes and subtracts the second one with the carry. -/
def subtractBlock (p : Byte × Byte) : List String :=
  ["LDB #" ++ toString p.1.val, "LDA #" ++ toString p.2.val, "SBC B,A"]

/-- Loads a byte and shifts it to the left through the carry. -/
def doubleBlock (x : Byte) : List String := ["LDB #" ++ toString x.val, "SLC B"]

/-- Loads a byte and shifts it to the right through the carry. -/
def halveBlock (x : Byte) : List String := ["LDB #" ++ toString x.val, "SRC B"]

/-- The block adds, subtracts or shifts. -/
def IsArithmetic (block : List String) : Prop :=
  (∃ p, block = addBlock p ∨ block = subtractBlock p) ∨
    ∃ x, block = doubleBlock x ∨ block = halveBlock x

theorem straightAs_load {r : RegisterIndex} {x : Byte} {line : String}
    (hcode : codeOf line = [(Op.loadImmediate r).code, x.val]) :
    StraightAs line (.loadImmediate r) [x.val] :=
  ⟨hcode, rfl, by simp, fun _ _ _ => rfl, fun _ _ _ => rfl⟩

theorem straightAs_loadB (x : Byte) :
    StraightAs ("LDB #" ++ toString x.val) (.loadImmediate registerB) [x.val] := by
  have hload : String.ofList (loadText 'B' []) = "LDB #" := by decide
  exact straightAs_load (hload ▸ codeOf_loadByte (by decide) (by decide +kernel) x.isLt)

theorem straightAs_loadA (x : Byte) :
    StraightAs ("LDA #" ++ toString x.val) (.loadImmediate accumulator) [x.val] := by
  have hload : String.ofList (loadText 'A' []) = "LDA #" := by decide
  exact straightAs_load (hload ▸ codeOf_loadByte (by decide) (by decide +kernel) x.isLt)

theorem straightAs_add : StraightAs "ADC B,A" (.withA .adc registerB) [] :=
  ⟨by decide +kernel, rfl, by simp, fun _ _ _ => rfl, fun _ _ _ => rfl⟩

theorem straightAs_subtract : StraightAs "SBC B,A" (.withA .sbc registerB) [] :=
  ⟨by decide +kernel, rfl, by simp, fun _ _ _ => rfl, fun _ _ _ => rfl⟩

theorem straightAs_double : StraightAs "SLC B" (.unary .slc registerB) [] :=
  ⟨by decide +kernel, rfl, by simp, fun _ _ _ => rfl, fun _ _ _ => rfl⟩

theorem straightAs_halve : StraightAs "SRC B" (.unary .src registerB) [] :=
  ⟨by decide +kernel, rfl, by simp, fun _ _ _ => rfl, fun _ _ _ => rfl⟩

theorem isStraight_of_isArithmetic {block : List String} (h : IsArithmetic block) :
    ∀ line ∈ block, IsStraight line := by
  have hloadB (x : Byte) : IsStraight ("LDB #" ++ toString x.val) := ⟨_, _, straightAs_loadB x⟩
  have hloadA (x : Byte) : IsStraight ("LDA #" ++ toString x.val) := ⟨_, _, straightAs_loadA x⟩
  rcases h with ⟨p, rfl | rfl⟩ | ⟨x, rfl | rfl⟩
  · exact List.forall_mem_cons.mpr ⟨hloadB p.1, List.forall_mem_cons.mpr
      ⟨hloadA p.2, List.forall_mem_singleton.mpr ⟨_, _, straightAs_add⟩⟩⟩
  · exact List.forall_mem_cons.mpr ⟨hloadB p.1, List.forall_mem_cons.mpr
      ⟨hloadA p.2, List.forall_mem_singleton.mpr ⟨_, _, straightAs_subtract⟩⟩⟩
  · exact List.forall_mem_cons.mpr
      ⟨hloadB x, List.forall_mem_singleton.mpr ⟨_, _, straightAs_double⟩⟩
  · exact List.forall_mem_cons.mpr
      ⟨hloadB x, List.forall_mem_singleton.mpr ⟨_, _, straightAs_halve⟩⟩

/-! ## The law of one byte -/

section Laws

variable {s t : State} {line : String} {p : Byte × Byte} {x : Byte}

/-- Both operands are loaded, and the carry is kept until the operation. -/
theorem exists_loaded (h : ExecutesAll
      ["LDB #" ++ toString p.1.val, "LDA #" ++ toString p.2.val, line] s t) :
    ∃ u : State, u.reg registerB = p.1.val ∧ u.a = p.2.val ∧ u.carry = s.carry ∧
      Executes line u t := by
  obtain ⟨v, hv, u, hu, w, hline, rfl⟩ := h
  obtain ⟨hregisters, hcarry⟩ := hv.load (straightAs_loadB p.1)
  obtain ⟨hregisters', hcarry'⟩ := hu.load (straightAs_loadA p.2)
  refine ⟨u, ?_, hregisters' accumulator, hcarry'.trans hcarry, hline⟩
  exact (hregisters' registerB).trans (hregisters registerB)

/-- The operand is loaded, and the carry is kept until the operation. -/
theorem exists_loadedB (h : ExecutesAll ["LDB #" ++ toString x.val, line] s t) :
    ∃ u : State, u.reg registerB = x.val ∧ u.carry = s.carry ∧ Executes line u t := by
  obtain ⟨u, hu, w, hline, rfl⟩ := h
  obtain ⟨hregisters, hcarry⟩ := hu.load (straightAs_loadB x)
  exact ⟨u, hregisters registerB, hcarry, hline⟩

/-- A flag that tells whether something holds counts one if it does. -/
theorem toNat_decide (P : Prop) [Decidable P] : (decide P).toNat = if P then 1 else 0 := by
  by_cases h : P <;> simp [h]

/-- The sum of two bytes and the carry is a byte and a carry of 256. -/
theorem add_law (h : ExecutesAll (addBlock p) s t) :
    t.a < 256 ∧ t.a + 256 * t.carry.toNat = p.1.val + p.2.val + s.carry.toNat := by
  obtain ⟨u, hb, ha, hcarry, hline⟩ := exists_loaded h
  obtain ⟨hresult, hcarry'⟩ := hline.withA straightAs_add
  have hc := Bool.toNat_le s.carry
  rw [hb, ha, hcarry, Alu.result] at hresult
  rw [hb, ha, hcarry, Alu.carry] at hcarry'
  rw [hresult, hcarry', toNat_decide]
  split <;> omega

/-- The difference of two bytes and the carry is a byte and a borrow of 256. -/
theorem subtract_law (h : ExecutesAll (subtractBlock p) s t) :
    t.a < 256 ∧
      (t.a : Int) - 256 * t.carry.toNat = p.1.val - p.2.val - s.carry.toNat := by
  obtain ⟨u, hb, ha, hcarry, hline⟩ := exists_loaded h
  obtain ⟨hresult, hcarry'⟩ := hline.withA straightAs_subtract
  have hc := Bool.toNat_le s.carry
  rw [hb, ha, hcarry, Alu.result] at hresult
  rw [hb, ha, hcarry, Alu.carry] at hcarry'
  rw [hresult, hcarry', toNat_decide]
  split <;> omega

/-- Twice a byte and the carry is a byte and a carry of 256. -/
theorem double_law (h : ExecutesAll (doubleBlock x) s t) :
    t.b < 256 ∧ t.b + 256 * t.carry.toNat = 2 * x.val + s.carry.toNat := by
  obtain ⟨u, hb, hcarry, hline⟩ := exists_loadedB h
  obtain ⟨hresult, hcarry'⟩ := hline.unary straightAs_double
  have hc := Bool.toNat_le s.carry
  rw [hb, hcarry, Unary.result] at hresult
  rw [hb, Unary.carry] at hcarry'
  rw [State.b, hresult, hcarry', toNat_decide]
  split <;> omega

/-- Half of a byte below a carry of 256 is a byte, and the rest is the carry. -/
theorem halve_law (h : ExecutesAll (halveBlock x) s t) :
    t.b < 256 ∧ 2 * t.b + t.carry.toNat = x.val + 256 * s.carry.toNat := by
  obtain ⟨u, hb, hcarry, hline⟩ := exists_loadedB h
  obtain ⟨hresult, hcarry'⟩ := hline.unary straightAs_halve
  have hc := Bool.toNat_le s.carry
  rw [hb, hcarry, Unary.result] at hresult
  rw [hb, Unary.carry] at hcarry'
  rw [State.b, hresult, hcarry', toNat_decide]
  split <;> omega

end Laws

/-! ## Many bytes -/

section Many

/-- The number with these bytes, the least significant one first. -/
def value (bytes : List Nat) : Nat := Nat.ofDigits 256 bytes

@[simp] theorem value_nil : value [] = 0 := rfl

theorem value_cons (x : Nat) (xs : List Nat) : value (x :: xs) = x + 256 * value xs :=
  Nat.ofDigits_cons

theorem value_concat (xs : List Nat) (x : Nat) :
    value (xs ++ [x]) = value xs + 256 ^ xs.length * x := by
  rw [value, Nat.ofDigits_append, Nat.ofDigits_singleton, value]

variable {α : Type} {xs : List α} {blocks : List (List String)} {s : State} {ts : List State}

theorem Passes.length_eq (h : Passes blocks s ts) : ts.length = blocks.length := by
  induction blocks generalizing s ts with
  | nil => exact congrArg List.length h
  | cons block blocks ih =>
    obtain ⟨t, rest, rfl, -, hrest⟩ := h
    simp [ih hrest]

/-- What every block establishes holds of all the states. -/
theorem Passes.forall_mem {P : State → Prop} {block : α → List String}
    (hblock : ∀ x s t, ExecutesAll (block x) s t → P t) (h : Passes (xs.map block) s ts) :
    ∀ t ∈ ts, P t := by
  induction xs generalizing s ts with
  | nil =>
    obtain rfl : ts = [] := h
    simp
  | cons x xs ih =>
    obtain ⟨t, rest, rfl, hx, hrest⟩ := h
    exact List.forall_mem_cons.mpr ⟨hblock x s t hx, ih hrest⟩

/-- Upwards what a block takes over counts one, and what it leaves counts 256: what the block before
leaves is what the block behind takes over. -/
theorem Passes.upwards {block : α → List String} (result : State → Nat) (out : State → Int)
    (f g : α → Nat) (k m : Int)
    (hlaw : ∀ x s t, ExecutesAll (block x) s t →
      (result t : Int) + 256 * out t = k * f x + m * g x + out s)
    (h : Passes (xs.map block) s ts) :
    (value (ts.map result) : Int) + 256 ^ xs.length * out (ts.getLastD s) =
      k * value (xs.map f) + m * value (xs.map g) + out s := by
  induction xs generalizing s ts with
  | nil =>
    obtain rfl : ts = [] := h
    simp
  | cons x xs ih =>
    obtain ⟨t, rest, rfl, hx, hrest⟩ := h
    have hfirst := hlaw x s t hx
    have hbehind := ih hrest
    simp only [List.map_cons, value_cons, List.length_cons, List.getLastD_cons, pow_succ]
    push_cast
    -- the carry between this block and those behind it stands on both sides, 256 times each
    linear_combination hfirst + 256 * hbehind

/-- Downwards what a block takes over counts 256, and what it leaves counts one. -/
theorem Passes.downwards {block : α → List String} (result out : State → Nat) (f : α → Nat)
    (hlaw : ∀ x s t, ExecutesAll (block x) s t → 2 * result t + out t = f x + 256 * out s)
    (h : Passes (xs.map block) s ts) :
    2 * value (ts.map result).reverse + out (ts.getLastD s) =
      value (xs.map f).reverse + 256 ^ xs.length * out s := by
  induction xs generalizing s ts with
  | nil =>
    obtain rfl : ts = [] := h
    simp
  | cons x xs ih =>
    obtain ⟨t, rest, rfl, hx, hrest⟩ := h
    have hlength : rest.length = xs.length := by rw [hrest.length_eq, List.length_map]
    have hfirst := hlaw x s t hx
    have hbehind := ih hrest
    simp only [List.map_cons, List.reverse_cons, value_concat, List.length_reverse, List.length_map,
      hlength, List.length_cons, List.getLastD_cons, pow_succ]
    zify at hfirst hbehind ⊢
    linear_combination 256 ^ xs.length * hfirst + hbehind

end Many

section Numbers

variable {xs : List Byte} {ps : List (Byte × Byte)} {s : State} {ts : List State}

/-- The sum of two numbers, with the last carry above it. -/
theorem Passes.value_add (h : Passes (ps.map addBlock) s ts) :
    value (ts.map (·.a)) + 256 ^ ps.length * (ts.getLastD s).carry.toNat =
      value (ps.map (·.1.val)) + value (ps.map (·.2.val)) + s.carry.toNat := by
  have hsum := h.upwards (fun t => t.a) (fun t => t.carry.toNat) (·.1.val) (·.2.val) 1 1
    fun p s t hp => by
      have hlaw := (add_law hp).2
      omega
  zify
  linear_combination hsum

/-- The difference of two numbers, with the last borrow above it. -/
theorem Passes.value_subtract (h : Passes (ps.map subtractBlock) s ts) :
    (value (ts.map (·.a)) : Int) - 256 ^ ps.length * (ts.getLastD s).carry.toNat =
      value (ps.map (·.1.val)) - value (ps.map (·.2.val)) - s.carry.toNat := by
  have hsum := h.upwards (fun t => t.a) (fun t => -t.carry.toNat) (·.1.val) (·.2.val) 1 (-1)
    fun p s t hp => by
      have hlaw := (subtract_law hp).2
      omega
  linear_combination hsum

/-- Twice a number, with the last carry above it. -/
theorem Passes.value_double (h : Passes (xs.map doubleBlock) s ts) :
    value (ts.map (·.b)) + 256 ^ xs.length * (ts.getLastD s).carry.toNat =
      2 * value (xs.map (·.val)) + s.carry.toNat := by
  have hsum := h.upwards (fun t => t.b) (fun t => t.carry.toNat) (·.val) (·.val) 2 0
    fun x s t hx => by
      have hlaw := (double_law hx).2
      omega
  zify
  linear_combination hsum

/-- Half of a number below the first carry, with the last carry as the rest. -/
theorem Passes.value_halve (h : Passes (xs.reverse.map halveBlock) s ts) :
    2 * value (ts.map (·.b)).reverse + (ts.getLastD s).carry.toNat =
      value (xs.map (·.val)) + 256 ^ xs.length * s.carry.toNat := by
  have hsum := h.downwards (fun t => t.b) (fun t => t.carry.toNat) (·.val)
    fun x s t hx => (halve_law hx).2
  rwa [List.map_reverse, List.reverse_reverse, List.length_reverse] at hsum

end Numbers

/-- Numbers of any number of bytes are added, subtracted, doubled and halved byte by byte, where only
the carry goes from one byte to the next: upwards when adding, subtracting and doubling, downwards
when halving.  The results are as many bytes.  Every such sequence of blocks can be executed, and
where memory holds the code of the blocks, running the machine executes them. -/
theorem multibyte_arithmetic (s : State) :
    (∀ (ps : List (Byte × Byte)) (ts : List State), s.carry = false →
      Passes (ps.map addBlock) s ts →
        ts.length = ps.length ∧ (∀ t ∈ ts, t.a < 256) ∧
          value (ts.map (·.a)) + 256 ^ ps.length * (ts.getLastD s).carry.toNat =
            value (ps.map (·.1.val)) + value (ps.map (·.2.val))) ∧
      (∀ (ps : List (Byte × Byte)) (ts : List State), s.carry = false →
        Passes (ps.map subtractBlock) s ts →
          ts.length = ps.length ∧ (∀ t ∈ ts, t.a < 256) ∧
            (value (ts.map (·.a)) : Int) - 256 ^ ps.length * (ts.getLastD s).carry.toNat =
              value (ps.map (·.1.val)) - value (ps.map (·.2.val))) ∧
      (∀ (xs : List Byte) (ts : List State), Passes (xs.map doubleBlock) s ts →
        ts.length = xs.length ∧ (∀ t ∈ ts, t.b < 256) ∧
          value (ts.map (·.b)) + 256 ^ xs.length * (ts.getLastD s).carry.toNat =
            2 * value (xs.map (·.val)) + s.carry.toNat) ∧
      (∀ (xs : List Byte) (ts : List State), Passes (xs.reverse.map halveBlock) s ts →
        ts.length = xs.length ∧ (∀ t ∈ ts, t.b < 256) ∧
          2 * value (ts.map (·.b)).reverse + (ts.getLastD s).carry.toNat =
            value (xs.map (·.val)) + 256 ^ xs.length * s.carry.toNat) ∧
      ((∀ r, s.reg r < 256) → ∀ blocks : List (List String),
        (∀ block ∈ blocks, IsArithmetic block) → ∃ ts, Passes blocks s ts) ∧
      (s.InRange → ∀ blocks : List (List String), (∀ block ∈ blocks, IsArithmetic block) →
        s.Holds (blocks.flatten.flatMap codeOf) → Passes blocks s (stops blocks s)) := by
  refine ⟨fun ps ts hcarry h => ?_, fun ps ts hcarry h => ?_, fun xs ts h => ?_, fun xs ts h => ?_,
    fun hs blocks hblocks => ?_, fun hs blocks hblocks hholds => ?_⟩
  · have hsum := h.value_add
    rw [hcarry, Bool.toNat_false, Nat.add_zero] at hsum
    exact ⟨by simp [h.length_eq], h.forall_mem fun p s t hp => (add_law hp).1, hsum⟩
  · have hdifference := h.value_subtract
    rw [hcarry, Bool.toNat_false, Nat.cast_zero, sub_zero] at hdifference
    exact ⟨by simp [h.length_eq], h.forall_mem fun p s t hp => (subtract_law hp).1, hdifference⟩
  · exact ⟨by simp [h.length_eq], h.forall_mem fun x s t hx => (double_law hx).1, h.value_double⟩
  · exact ⟨by simp [h.length_eq], h.forall_mem fun x s t hx => (halve_law hx).1, h.value_halve⟩
  · exact exists_passes (fun block hblock => isStraight_of_isArithmetic (hblocks block hblock)) hs
  · exact passes_of_holds (fun block hblock => isStraight_of_isArithmetic (hblocks block hblock)) hs
      hholds

/-- A program in memory adds 65535 and 1 with a carry that ripples; from where it starts, borrows and
shifted bits ripple likewise. -/
theorem carry_ripples :
    let sum : List (Byte × Byte) := [(255, 1), (255, 0)]
    let difference : List (Byte × Byte) := [(0, 1), (1, 0)]
    let text := "\n".intercalate ((sum.map addBlock).flatten ++ ["HLT"])
    let s := load (programWords 8 (dialect.assemble text).lines)
    let ts := stops (sum.map addBlock) s
    Passes (sum.map addBlock) s ts ∧
      value (ts.map (·.a)) + 65536 * (ts.getLastD s).carry.toNat = 65535 + 1 ∧
      (∃ ts, Passes (difference.map subtractBlock) s ts ∧
        (value (ts.map (·.a)) : Int) - 65536 * (ts.getLastD s).carry.toNat = 256 - 1) ∧
      (∃ ts, Passes ([255, 128].map doubleBlock) s ts ∧
        value (ts.map (·.b)) + 65536 * (ts.getLastD s).carry.toNat = 2 * 33023) ∧
      ∃ ts, Passes ([1, 1].reverse.map halveBlock) s ts ∧
        2 * value (ts.map (·.b)).reverse + (ts.getLastD s).carry.toNat = 257 := by
  intro sum difference text s ts
  obtain ⟨hadd, hsubtract, hdouble, hhalve, hexists, hruns⟩ := multibyte_arithmetic s
  have hrange : s.InRange := inRange_load _
  have hsum : ∀ block ∈ sum.map addBlock, IsArithmetic block :=
    List.forall_mem_map.mpr fun p _ => .inl ⟨p, .inl rfl⟩
  have hholds : s.Holds ((sum.map addBlock).flatten.flatMap codeOf) := by decide +kernel
  have hpasses : Passes (sum.map addBlock) s ts := hruns hrange _ hsum hholds
  obtain ⟨us, hus⟩ := hexists hrange.registers (difference.map subtractBlock)
    (List.forall_mem_map.mpr fun p _ => .inl ⟨p, .inr rfl⟩)
  obtain ⟨vs, hvs⟩ := hexists hrange.registers ([255, 128].map doubleBlock)
    (List.forall_mem_map.mpr fun x _ => .inr ⟨x, .inl rfl⟩)
  obtain ⟨ws, hws⟩ := hexists hrange.registers ([1, 1].reverse.map halveBlock)
    (List.forall_mem_map.mpr fun x _ => .inr ⟨x, .inr rfl⟩)
  exact ⟨hpasses, (hadd sum ts rfl hpasses).2.2, ⟨us, hus, (hsubtract difference us rfl hus).2.2⟩,
    ⟨vs, hvs, (hdouble [255, 128] vs hvs).2.2⟩, ws, hws, (hhalve [1, 1] ws hws).2.2⟩

end PocketAsm.V8

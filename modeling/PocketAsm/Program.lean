/-
  Program.lean --- the program under assembly, after the first pass over some lines.

  The first pass gives every instruction its address and records labels and
  constants.  An operand that names a symbol cannot be encoded yet, so an
  instruction is a list of parts: bits, and references that the second pass
  resolves.

  A line changes the program edit by edit and may fail after some of its
  edits.  A checkpoint, taken before the line, counts what the program holds;
  going back to it cuts off whatever was added since.  That undoes every edit
  but the one that drops lines, `Edit.resume`.
-/
import PocketAsm.Bits.Basic
import PocketAsm.Literal.Character

set_option autoImplicit false

namespace PocketAsm

/-! ## Placed lines -/

/-- Where an instruction came from. -/
structure Source where
  /-- the line, counted from zero -/
  line : Nat
  /-- the line as it stands in the text -/
  raw : String
  /-- the line without comment and surrounding blanks -/
  shown : String
  /-- the text that was matched: after an expansion its result, or a mark such as `(data)` -/
  matched : String
  deriving DecidableEq, Repr, Inhabited

/-- An operand to be resolved in the second pass. -/
structure Reference where
  /-- the symbol or pair as written -/
  text : String
  /-- the width of its field -/
  width : Nat
  /-- the address of the instruction that holds it -/
  origin : Int
  /-- encoded as the distance from the origin -/
  relative : Bool
  /-- held against the signed range -/
  signed : Bool
  deriving DecidableEq, Repr, Inhabited

/-- A part of an instruction. -/
inductive Part where
  | bits (bits : Bits)
  | ref (reference : Reference)
  deriving DecidableEq, Repr, Inhabited

/-- The width of a part once it is resolved. -/
def Part.width : Part → Nat
  | .bits b => b.length
  | .ref r => r.width

/-- A line of the program after the first pass. -/
inductive Placed where
  | label (name : String) (source : Source)
  | instruction (address : Nat) (source : Source) (parts : List Part)
  deriving DecidableEq, Repr, Inhabited

/-- The width of an instruction once it is resolved. -/
def partsWidth (parts : List Part) : Nat := parts.foldr (fun part total => part.width + total) 0

/-! ## Programs -/

/-- Names with their values, in the order of definition. -/
abbrev SymbolTable : Type := List (String × Int)

/-- The state of the first pass. -/
structure Program where
  /-- the address of the next instruction -/
  address : Nat
  /-- whether instructions are kept; undecided before the first `.start` or `.end` -/
  emitting : Option Bool
  /-- labels and instructions in the order of the source -/
  lines : Array Placed
  /-- the addresses of the labels -/
  labels : SymbolTable
  /-- the values of the constants -/
  constants : SymbolTable
  /-- the character encoding in force -/
  encoding : Option CharEncoding
  deriving DecidableEq, Repr, Inhabited

/-- A single change of the program. -/
inductive Edit where
  /-- place an instruction of so many words at the current address -/
  | place (parts : List Part) (words : Nat) (source : Source)
  /-- define a label at the current address -/
  | label (name : String) (source : Source)
  /-- define a constant -/
  | constant (name : String) (value : Int)
  /-- move the current address -/
  | moveTo (address : Nat)
  /-- keep instructions from here on -/
  | resume
  /-- keep no instructions from here on -/
  | stop
  /-- change the character encoding -/
  | encodeBy (encoding : CharEncoding)
  deriving DecidableEq, Repr, Inhabited

/-- How far a program is: the counts of what lines only add to, and the rest as it is. -/
structure Checkpoint where
  lines : Nat
  address : Nat
  labels : Nat
  constants : Nat
  emitting : Option Bool
  encoding : Option CharEncoding
  deriving DecidableEq, Repr, Inhabited

namespace Program

/-- The program before the first line. -/
def start (encoding : Option CharEncoding) : Program := ⟨0, none, #[], [], [], encoding⟩

/-- A table has an entry with the name. -/
def defines (table : SymbolTable) (name : String) : Bool := table.any (·.1 == name)

/-- Whether instructions are kept. -/
def keeps (p : Program) : Bool := p.emitting.getD true

/-! ## Edits -/

/-- The program after an edit. -/
def apply (p : Program) : Edit → Program
  | .place parts words source =>
    -- where instructions are not kept the address moves on all the same
    { p with
      lines := if p.keeps then p.lines.push (.instruction p.address source parts) else p.lines
      address := p.address + words }
  | .label name source =>
    { p with
      labels := p.labels ++ [(name, (p.address : Int))]
      lines := p.lines.push (.label name source) }
  | .constant name value => { p with constants := p.constants ++ [(name, value)] }
  | .moveTo address => { p with address := address }
  | .resume =>
    -- a program that never stopped drops everything before its first such line
    { p with
      lines := if p.emitting.isNone then #[] else p.lines
      emitting := some true }
  | .stop => { p with emitting := some false }
  | .encodeBy encoding => { p with encoding := some encoding }

/-- The program after some edits, the first one first. -/
def applyAll (p : Program) (edits : List Edit) : Program := edits.foldl apply p

/-! ## Checkpoints -/

/-- What is known of a program before a line. -/
def checkpoint (p : Program) : Checkpoint where
  lines := p.lines.size
  address := p.address
  labels := p.labels.length
  constants := p.constants.length
  emitting := p.emitting
  encoding := p.encoding

/-- Goes back to a checkpoint: cuts off the lines, labels and constants that are beyond its counts,
and restores the rest. -/
def rollback (p : Program) (c : Checkpoint) : Program where
  address := c.address
  emitting := c.emitting
  lines := p.lines.take c.lines
  labels := p.labels.take c.labels
  constants := p.constants.take c.constants
  encoding := c.encoding

/-! ## Definitions and directives -/

/-- The edit that defines a label, which must be new. -/
def defineLabel (p : Program) (name : String) (source : Source) : Except Fault Edit :=
  if defines p.labels name then .error (.duplicate "Label" name) else .ok (.label name source)

/-- The edit that defines a constant, which must be new. -/
def defineConstant (p : Program) (name : String) (value : Int) : Except Fault Edit :=
  if defines p.constants name then .error (.duplicate "Constant" name)
  else .ok (.constant name value)

/-- The edit that moves the current address. -/
def setAddress (value : Int) : Except Fault Edit :=
  if value < 0 then .error (.negativeAddress value) else .ok (.moveTo value.toNat)

/-- How many words lie between an address and the next multiple of the boundary. -/
def gap (address boundary : Nat) : Nat := (boundary - address % boundary) % boundary

theorem gap_of_mod_eq_zero {address boundary : Nat} (h : address % boundary = 0) :
    gap address boundary = 0 := by
  simp [gap, h]

/-- The address behind one that is off the boundary is nearer to it. -/
theorem gap_of_mod_ne_zero {address boundary : Nat} (hboundary : 0 < boundary)
    (h : address % boundary ≠ 0) : gap address boundary = gap (address + 1) boundary + 1 := by
  have hlt : address % boundary < boundary := Nat.mod_lt address hboundary
  have hgap : gap address boundary = boundary - address % boundary :=
    Nat.mod_eq_of_lt (by omega)
  have hnext : (address + 1) % boundary = (address % boundary + 1) % boundary :=
    (Nat.mod_add_mod address boundary 1).symm
  rcases Nat.lt_or_ge (address % boundary + 1) boundary with hinside | hlast
  · have hgap' : gap (address + 1) boundary = boundary - (address % boundary + 1) := by
      rw [gap, hnext, Nat.mod_eq_of_lt hinside]
      exact Nat.mod_eq_of_lt (by omega)
    omega
  · have hzero : (address + 1) % boundary = 0 := by
      rw [hnext, show address % boundary + 1 = boundary by omega, Nat.mod_self]
    rw [gap_of_mod_eq_zero hzero]
    omega

/-- Places words one after the other as long as the address is no multiple of the boundary.  The
edits made before them are given, the latest one first. -/
def fillFrom (boundary : Nat) (hboundary : 0 < boundary) (word : List Part) (source : Source)
    (p : Program) (done : List Edit) : List Edit :=
  if p.address % boundary = 0 then done.reverse
  else
    let edit := Edit.place word 1 source
    fillFrom boundary hboundary word source (p.apply edit) (edit :: done)
termination_by gap p.address boundary
decreasing_by
  -- the address moves on whether or not the word is kept
  rename_i hoff
  rw [gap_of_mod_ne_zero hboundary hoff]
  exact Nat.lt_succ_self _

/-- Fills up with words of zeros to the next multiple of the boundary. -/
def align (p : Program) (boundary : Int) (wordSize : Nat) (source : Source) :
    Except Fault (List Edit) :=
  if h : boundary ≤ 0 then .error (.badAlignment boundary)
  else
    let zeros := Part.bits (List.replicate wordSize false)
    .ok (fillFrom boundary.toNat (by omega) [zeros] { source with matched := "(align)" } p [])

/-- The words that fill up are as many as lie in the gap. -/
theorem fillFrom_eq {boundary : Nat} (hboundary : 0 < boundary) (word : List Part)
    (source : Source) (p : Program) (done : List Edit) :
    fillFrom boundary hboundary word source p done =
      done.reverse ++ List.replicate (gap p.address boundary) (.place word 1 source) := by
  fun_induction fillFrom boundary hboundary word source p done with
  | case1 p done hzero => rw [gap_of_mod_eq_zero hzero, List.replicate_zero, List.append_nil]
  | case2 p done hoff edit ih =>
    rw [ih, gap_of_mod_ne_zero hboundary hoff, List.replicate_succ, List.reverse_cons,
      List.append_assoc]
    rfl

theorem align_eq (p : Program) (boundary : Int) (wordSize : Nat) (source : Source) :
    p.align boundary wordSize source =
      if boundary ≤ 0 then .error (.badAlignment boundary)
      else
        let zeros := Part.bits (List.replicate wordSize false)
        .ok (List.replicate (gap p.address boundary.toNat)
          (.place [zeros] 1 { source with matched := "(align)" })) := by
  unfold align
  split
  · rfl
  · dsimp only
    rw [fillFrom_eq, List.reverse_nil, List.nil_append]

end Program

end PocketAsm

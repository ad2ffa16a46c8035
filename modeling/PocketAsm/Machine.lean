/-
  Machine.lean --- what machines have in common, and how they are run.

  A machine loads a memory image, executes one instruction at a time, and
  tells its program counter and whether it sits on a halt instruction.  The
  runner executes a bounded number of instructions and stops early on a halt
  or when the program counter comes to a breakpoint.
-/
import PocketAsm.Binary64.Basic
import PocketAsm.Memory
import PocketAsm.Isa.Parva.Display

set_option autoImplicit false

namespace PocketAsm

/-! ## Machines -/

/-- Why an instruction cannot be executed. -/
inductive MachineFault where
  /-- no instruction has this opcode -/
  | unknownOpcode (opcode pc : Nat)
  deriving DecidableEq, Repr, Inhabited

/-- The fault in words. -/
def MachineFault.message : MachineFault → String
  | .unknownOpcode opcode pc =>
    "Unknown opcode " ++ Text.markedHex 2 opcode ++ " at " ++ Text.markedHex 4 pc

/-- A machine. -/
class Machine (σ : Type) where
  /-- the state after reset, with the words of an image in memory -/
  load : List (Int × Int) → σ
  /-- the state after the instruction at the program counter -/
  step : σ → Except MachineFault σ
  /-- the program counter -/
  pc : σ → Nat
  /-- the instruction at the program counter halts the machine -/
  halted : σ → Bool
  /-- the memory -/
  memory : σ → Memory
  /-- the state as text -/
  display : σ → String
  /-- the screen, if the machine has one -/
  screen? : σ → Option Parva.Screen

/-- The words of an image, each address once: in the order in which addresses first appear, with
the word that came last. -/
def lastWords {α : Type} (words : List (Int × α)) : List (Int × α) :=
  let final : Std.TreeMap Int α := words.foldl (fun m w => m.insert w.1 w.2) ∅
  let step (acc : Array (Int × α) × Std.TreeMap Int Unit) (w : Int × α) :=
    if acc.2.contains w.1 then acc
    else (acc.1.push (w.1, final.getD w.1 w.2), acc.2.insert w.1 ())
  (words.foldl step (#[], ∅)).1.toList

/-- The words of finished lines, in the order of the program. -/
def programWords (wordSize : Nat) (lines : List OutputLine) : List (Int × Int) :=
  (lines.flatMap (·.words wordSize)).map fun (address, value) => (address, (value : Int))

/-! ## Stops -/

/-- Why a run stopped. -/
inductive StopReason where
  /-- for no reason of its own -/
  | none
  /-- the program counter came to a breakpoint -/
  | breakpoint
  /-- the machine sits on a halt instruction -/
  | halt
  /-- one instruction was asked for -/
  | step
  /-- somebody stopped the run -/
  | interrupt
  /-- the budget is spent -/
  | budget
  deriving DecidableEq, Repr, Inhabited

/-- Where and why a run stopped. -/
structure Stop where
  reason : StopReason
  /-- the program counter -/
  address : Option Int
  /-- the instructions executed -/
  steps : Int
  /-- words of its own; if there are none the reason speaks -/
  remark : String := ""
  deriving DecidableEq, Repr, Inhabited

/-- The reason in words; a breakpoint or a halt cannot be told without its address. -/
def Stop.reasonText? (stop : Stop) : Option String :=
  match stop.reason with
  | .breakpoint => stop.address.map fun a => "Breakpoint at " ++ Text.markedHex 0 a
  | .halt => stop.address.map fun a => "Halted at " ++ Text.markedHex 0 a
  | .step => some "Single step"
  | .interrupt => some "Interrupted"
  | .budget =>
    let steps := stop.steps
    some s!"Stopped after {steps} steps"
  | .none => some "Stopped"

/-- The stop in words. -/
def Stop.text? (stop : Stop) : Option String :=
  if stop.remark = "" then stop.reasonText? else some stop.remark

/-! ## Runs -/

/-- A machine with breakpoints and a count of the instructions since it was loaded. -/
structure Runner (σ : Type) where
  machine : σ
  /-- in increasing order -/
  breakpoints : List Int
  total : Nat

/-- A speed in instructions per second sets a pause after each one; at no speed, and at one without
bound, there is none. -/
def isPaced (speed : Binary64) : Bool :=
  match speed with
  | .finite _ mantissa _ => mantissa != 0
  | .infinite _ => false
  | .nan => true

/-- How a run goes. -/
structure RunOptions where
  /-- the greatest number of instructions -/
  budget : Nat
  /-- pause after each instruction -/
  paced : Bool
  /-- somebody stops the run after this many instructions -/
  interruptAfter : Option Int
  deriving DecidableEq, Repr, Inhabited

/-- How far a run has come. -/
structure Progress (σ : Type) where
  machine : σ
  /-- the instructions executed -/
  steps : Nat
  /-- the program counter after each instruction, the last one first -/
  trace : List Nat
  /-- the pauses made -/
  naps : Nat

namespace Runner

variable {σ : Type} [Machine σ]

/-- A runner for a fresh machine. -/
def new : Runner σ := ⟨Machine.load [], [], 0⟩

/-- Adds a breakpoint. -/
def addBreakpoint (r : Runner σ) (address : Int) : Runner σ :=
  { r with
    breakpoints :=
      r.breakpoints.filter (· < address) ++ [address] ++ r.breakpoints.filter (address < ·) }

/-- Removes a breakpoint. -/
def removeBreakpoint (r : Runner σ) (address : Int) : Runner σ :=
  { r with breakpoints := r.breakpoints.filter (· != address) }

/-- Removes all breakpoints. -/
def clearBreakpoints (r : Runner σ) : Runner σ := { r with breakpoints := [] }

/-- Loads an image and resets the machine; breakpoints stay. -/
def load (r : Runner σ) (words : List (Int × Int)) : Runner σ :=
  { r with machine := Machine.load words, total := 0 }

/-- Executes one instruction and ignores breakpoints. -/
def step (r : Runner σ) : Except MachineFault (Runner σ) :=
  match Machine.step r.machine with
  | .error e => .error e
  | .ok s => .ok { r with machine := s, total := r.total + 1 }

/-- The stop after a single instruction. -/
def stepStop (r : Runner σ) : Stop :=
  { reason := .step, address := some (Machine.pc r.machine : Int), steps := 1 }

/-- Executes instructions until a reason to stop comes up; the first argument is what is left of
the budget. -/
def advance (breakpoints : List Int) (options : RunOptions) :
    Nat → Progress σ → Progress σ × Except MachineFault StopReason
  | 0, p => (p, .ok .budget)
  | left + 1, p =>
    if Machine.halted p.machine then (p, .ok .halt)
    else
      match Machine.step p.machine with
      | .error e => (p, .error e)
      | .ok s =>
        let pc := Machine.pc s
        let p : Progress σ := ⟨s, p.steps + 1, pc :: p.trace, p.naps⟩
        if options.interruptAfter = some (p.steps : Int) then (p, .ok .interrupt)
        else if breakpoints.contains (pc : Int) then (p, .ok .breakpoint)
        else
          advance breakpoints options left
            { p with naps := if options.paced then p.naps + 1 else p.naps }

/-- Runs the machine.  The instruction at the program counter is executed even at a breakpoint, so
that a run can go on from where the last one stopped. -/
def run (r : Runner σ) (options : RunOptions) :
    Runner σ × Progress σ × Except MachineFault Stop :=
  let (p, stop) := advance r.breakpoints options options.budget ⟨r.machine, 0, [], 0⟩
  ({ r with machine := p.machine, total := r.total + p.steps }, p,
    stop.map fun reason =>
      { reason := reason, address := some (Machine.pc p.machine : Int), steps := (p.steps : Int) })

end Runner

/-- The instructions per second of the machines in the game. -/
def realTimeSpeed : Nat := 70

end PocketAsm

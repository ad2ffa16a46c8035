/-
  Shell/Options.lean --- options on a command line.

  Options begin with a dash.  A long one may have its value after an equals
  sign; short ones can stand together behind one dash, and the last of them
  may have its value right after it.  Two dashes alone end the options.  What
  is no option is an operand.
-/

set_option autoImplicit false

namespace PocketAsm.Shell

/-- An option that a tool knows. -/
structure Switch where
  /-- its spellings -/
  names : List String
  /-- what it is about -/
  key : String
  /-- what it stands for by itself; without that it takes a value -/
  fixed : Option String
  deriving DecidableEq, Repr, Inhabited

namespace Switch

/-- An option that takes a value. -/
def valued (names : List String) (key : String) : Switch := ⟨names, key, none⟩

/-- An option that is there or not. -/
def flag (names : List String) (key : String) : Switch := ⟨names, key, some "on"⟩

/-- An option that stands for a value. -/
def constant (name key value : String) : Switch := ⟨[name], key, some value⟩

end Switch

/-- The options and operands of a command line, in order. -/
structure Arguments where
  options : List (String × String)
  operands : List String
  deriving DecidableEq, Repr, Inhabited

namespace Arguments

/-- The value of an option, the last one if it is given more than once. -/
def last? (a : Arguments) (key : String) : Option String := a.options.reverse.lookup key

/-- All values of an option. -/
def all (a : Arguments) (key : String) : List String :=
  (a.options.filter (·.1 == key)).map (·.2)

/-- The option is given. -/
def isOn (a : Arguments) (key : String) : Bool := (a.last? key).isSome

/-- What the options are about, in the order in which they first appear. -/
def keys (a : Arguments) : List String := (a.options.map (·.1)).eraseDups

/-- Adds options. -/
def addOptions (a : Arguments) (options : List (String × String)) : Arguments :=
  { a with options := a.options ++ options }

/-- Adds operands. -/
def addOperands (a : Arguments) (operands : List String) : Arguments :=
  { a with operands := a.operands ++ operands }

end Arguments

/-! ## Reading -/

/-- Why a command line cannot be read. -/
inductive OptionFault where
  /-- there is no such option -/
  | unknown
  /-- the option takes no value -/
  | unwanted (name : String)
  /-- the option lacks its value -/
  | valueless (name : String)
  deriving DecidableEq, Repr, Inhabited

/-- The fault in words. -/
def OptionFault.message : OptionFault → String
  | .unknown => "No such option."
  | .unwanted name => s!"Option '{name}' does not take a value."
  | .valueless name => s!"Option '{name}' requires an argument."

/-- The option with the given spelling. -/
def findSwitch (switches : List Switch) (name : String) : Option Switch :=
  switches.find? (·.names.contains name)

/-- An option that waits for its value: its key, and its spelling. -/
structure Pending where
  key : String
  name : String
  deriving DecidableEq, Repr, Inhabited

/-- What one argument gives: options, and perhaps one whose value is the next argument. -/
abbrev Given : Type := List (String × String) × Option Pending

/-- The options behind one dash. -/
def readCluster (switches : List Switch) :
    List (String × String) → List Char → Except OptionFault Given
  | acc, [] => .ok (acc, none)
  | acc, c :: cs =>
    let name := String.ofList ['-', c]
    match findSwitch switches name with
    | none => .error .unknown
    | some s =>
      match s.fixed with
      | some value => readCluster switches (acc ++ [(s.key, value)]) cs
      | none =>
        if cs.isEmpty then .ok (acc, some ⟨s.key, name⟩)
        else .ok (acc ++ [(s.key, String.ofList cs)], none)

/-- The name of a long option and the value after the equals sign. -/
def splitValue (cs : List Char) : List Char × Option (List Char) :=
  match cs.dropWhile (· != '=') with
  | [] => (cs, none)
  | _ :: value => (cs.takeWhile (· != '='), some value)

/-- The spelling is that of a short option. -/
def isShort (cs : List Char) : Bool := cs.length == 2

/-- The options that an argument gives. -/
def readOption (switches : List Switch) (argument : String) : Except OptionFault Given :=
  let cs := argument.toList
  let (spelled, value) := splitValue cs
  let name := String.ofList spelled
  match if isShort spelled then none else findSwitch switches name with
  | some s =>
    match s.fixed, value with
    | some fixed, none => .ok ([(s.key, fixed)], none)
    | some _, some _ => .error (.unwanted name)
    | none, some v => .ok ([(s.key, String.ofList v)], none)
    | none, none => .ok ([], some ⟨s.key, name⟩)
  | none =>
    if ['-', '-'].isPrefixOf cs then .error .unknown else readCluster switches [] (cs.drop 1)

/-- The argument is an option. -/
def isOption (argument : String) : Bool :=
  argument.toList.head? == some '-' && argument.length != 1

/-- The options and operands of a command line.  Unless options may stand anywhere, the first operand
ends them. -/
def readArguments (switches : List Switch) (anywhere : Bool) :
    List String → Arguments → Except OptionFault Arguments
  | [], a => .ok a
  | argument :: rest, a =>
    if argument = "--" then .ok (a.addOperands rest)
    else if isOption argument then
      match readOption switches argument with
      | .error e => .error e
      | .ok (options, none) => readArguments switches anywhere rest (a.addOptions options)
      | .ok (options, some pending) =>
        match rest with
        | [] => .error (.valueless pending.name)
        | value :: rest =>
          readArguments switches anywhere rest (a.addOptions (options ++ [(pending.key, value)]))
    else if anywhere then readArguments switches anywhere rest (a.addOperands [argument])
    else .ok (a.addOperands (argument :: rest))

end PocketAsm.Shell

import PocketAsm.Architecture
import PocketAsm.Assembly
import PocketAsm.Binary64.Basic
import PocketAsm.Binary64.Checked
import PocketAsm.Binary64.Reader
import PocketAsm.Binary64.Text
import PocketAsm.Bits.Basic
import PocketAsm.Bits.Checked
import PocketAsm.Bits.Note
import PocketAsm.Dialect
import PocketAsm.Fault
import PocketAsm.Files
import PocketAsm.Isa.Bitzzy.Dialect
import PocketAsm.Isa.Bitzzy.Machine
import PocketAsm.Isa.Bitzzy.Opcode
import PocketAsm.Isa.Lodestar.Dialect
import PocketAsm.Isa.Operand
import PocketAsm.Isa.Parva.Dialect
import PocketAsm.Isa.Parva.Display
import PocketAsm.Isa.Parva.Machine
import PocketAsm.Isa.Parva.Register
import PocketAsm.Isa.RegisterFile
import PocketAsm.Isa.V8.Dialect
import PocketAsm.Isa.V8.Machine
import PocketAsm.Isa.V8.Register
import PocketAsm.Json.Basic
import PocketAsm.Json.Bytes
import PocketAsm.Json.Display
import PocketAsm.Json.Integer
import PocketAsm.Json.Reader
import PocketAsm.Json.Writer
import PocketAsm.Listing
import PocketAsm.Literal.Character
import PocketAsm.Literal.Number
import PocketAsm.Machine
import PocketAsm.Main
import PocketAsm.Memory
import PocketAsm.Path
import PocketAsm.Pattern
import PocketAsm.Program
import PocketAsm.Proofs.Accounting
import PocketAsm.Proofs.Addressing
import PocketAsm.Proofs.Agreement
import PocketAsm.Proofs.Alignment
import PocketAsm.Proofs.Atomicity
import PocketAsm.Proofs.BitTexts
import PocketAsm.Proofs.Bitzzy.Execution
import PocketAsm.Proofs.Bitzzy.Instructions
import PocketAsm.Proofs.Bitzzy.Lines
import PocketAsm.Proofs.Bitzzy.Meaning
import PocketAsm.Proofs.Bitzzy.Ranges
import PocketAsm.Proofs.Bitzzy.Rules
import PocketAsm.Proofs.Bitzzy.Twins
import PocketAsm.Proofs.Bytes
import PocketAsm.Proofs.Constants
import PocketAsm.Proofs.Directives
import PocketAsm.Proofs.Edits
import PocketAsm.Proofs.Encoding
import PocketAsm.Proofs.Expansions
import PocketAsm.Proofs.Fields
import PocketAsm.Proofs.Files
import PocketAsm.Proofs.FirstPass
import PocketAsm.Proofs.Image
import PocketAsm.Proofs.Json.Indented
import PocketAsm.Proofs.Json.Strings
import PocketAsm.Proofs.Json.Values
import PocketAsm.Proofs.Json.Writable
import PocketAsm.Proofs.Language
import PocketAsm.Proofs.Layout
import PocketAsm.Proofs.Lines
import PocketAsm.Proofs.Literals
import PocketAsm.Proofs.Lodestar.Immediates
import PocketAsm.Proofs.Lodestar.Lines
import PocketAsm.Proofs.Lodestar.Operands
import PocketAsm.Proofs.Lodestar.Rules
import PocketAsm.Proofs.Lodestar.Sharing
import PocketAsm.Proofs.Magnitude
import PocketAsm.Proofs.Matching
import PocketAsm.Proofs.Notes
import PocketAsm.Proofs.Numerals
import PocketAsm.Proofs.Offsets
import PocketAsm.Proofs.Origin
import PocketAsm.Proofs.Packing
import PocketAsm.Proofs.Pairs
import PocketAsm.Proofs.Parva.Branches
import PocketAsm.Proofs.Parva.Computation
import PocketAsm.Proofs.Parva.Decoding
import PocketAsm.Proofs.Parva.Drawing
import PocketAsm.Proofs.Parva.Expansions
import PocketAsm.Proofs.Parva.Jumps
import PocketAsm.Proofs.Parva.Meaning
import PocketAsm.Proofs.Parva.NumberLoads
import PocketAsm.Proofs.Parva.Operands
import PocketAsm.Proofs.Parva.Placing
import PocketAsm.Proofs.Parva.PushPop
import PocketAsm.Proofs.Parva.Ranges
import PocketAsm.Proofs.Parva.Relocation
import PocketAsm.Proofs.Parva.Strings
import PocketAsm.Proofs.Parva.Transfers
import PocketAsm.Proofs.Parva.Twins
import PocketAsm.Proofs.Parva.Written
import PocketAsm.Proofs.Precedence
import PocketAsm.Proofs.Ranges
import PocketAsm.Proofs.Relocation
import PocketAsm.Proofs.Repetition
import PocketAsm.Proofs.Replacement
import PocketAsm.Proofs.Reports
import PocketAsm.Proofs.RuleTables
import PocketAsm.Proofs.Running
import PocketAsm.Proofs.SecondPass
import PocketAsm.Proofs.Settings.Loading
import PocketAsm.Proofs.Settings.RoundTrip
import PocketAsm.Proofs.Settings.Values
import PocketAsm.Proofs.Shallowness
import PocketAsm.Proofs.Spelling
import PocketAsm.Proofs.Stacks
import PocketAsm.Proofs.Stepping
import PocketAsm.Proofs.Styling
import PocketAsm.Proofs.Switches
import PocketAsm.Proofs.Templates
import PocketAsm.Proofs.Tokens
import PocketAsm.Proofs.Transfer.Answers
import PocketAsm.Proofs.Transfer.Blocks
import PocketAsm.Proofs.Transfer.Codec
import PocketAsm.Proofs.Transfer.Decoding
import PocketAsm.Proofs.Transfer.Delivery
import PocketAsm.Proofs.Transfer.Interruption
import PocketAsm.Proofs.Transfer.Nesting
import PocketAsm.Proofs.Transfer.Overflow
import PocketAsm.Proofs.Transfer.Sending
import PocketAsm.Proofs.Transfer.Sessions
import PocketAsm.Proofs.Transfer.StatusLines
import PocketAsm.Proofs.Transfer.Timing
import PocketAsm.Proofs.Transfer.Wire
import PocketAsm.Proofs.Twins
import PocketAsm.Proofs.V8.Execution
import PocketAsm.Proofs.V8.Immediates
import PocketAsm.Proofs.V8.Instructions
import PocketAsm.Proofs.V8.Lines
import PocketAsm.Proofs.V8.Meaning
import PocketAsm.Proofs.V8.Multibyte
import PocketAsm.Proofs.V8.Ranges
import PocketAsm.Proofs.V8.Rules
import PocketAsm.Proofs.V8.Twins
import PocketAsm.Proofs.Widths
import PocketAsm.Settings
import PocketAsm.Shell.Address
import PocketAsm.Shell.Assemble
import PocketAsm.Shell.Console
import PocketAsm.Shell.Emulate
import PocketAsm.Shell.Options
import PocketAsm.Shell.Png
import PocketAsm.Shell.Send
import PocketAsm.Shell.Tools
import PocketAsm.Symbols
import PocketAsm.Text.Blank
import PocketAsm.Text.CodePoint
import PocketAsm.Text.DecimalDigit
import PocketAsm.Text.Letter
import PocketAsm.Text.LowerCase
import PocketAsm.Text.Numeral
import PocketAsm.Text.Printable
import PocketAsm.Text.Quoted
import PocketAsm.Text.Similarity
import PocketAsm.Text.Style
import PocketAsm.Text.Utf8
import PocketAsm.Text.WordChar
import PocketAsm.Transfer.Bridge
import PocketAsm.Transfer.Client
import PocketAsm.Transfer.Fault
import PocketAsm.Transfer.Image
import PocketAsm.Transfer.Listener
import PocketAsm.Transfer.Message
import PocketAsm.Transfer.Progress
import PocketAsm.Transfer.Request
import PocketAsm.Transfer.Serial
import PocketAsm.Transfer.Status
import PocketAsm.Transfer.Stream

import WordMachine.Text.Blank
import WordMachine.Text.Numeral
import WordMachine.Text.Base64Url
import WordMachine.Bits
import WordMachine.Chunks
import WordMachine.Radix
import WordMachine.Event
import WordMachine.Memory.Basic
import WordMachine.Memory.Encoding
import WordMachine.Memory.Dump
import WordMachine.Instruction.Opcode
import WordMachine.Instruction.Register
import WordMachine.Instruction.Mode
import WordMachine.Instruction.Head
import WordMachine.Machine.Basic
import WordMachine.Machine.Step
import WordMachine.Machine.Run
import WordMachine.Parsing.Result
import WordMachine.Parsing.Pattern
import WordMachine.Parsing.Parser
import WordMachine.Assembly.Statement
import WordMachine.Assembly.Fault
import WordMachine.Assembly.Grammar
import WordMachine.Assembly.Layout
import WordMachine.Assembly.Image
import WordMachine.Assembly.Program
import WordMachine.Shell.Command
import WordMachine.Shell.Host
import WordMachine.Shell.Session
import WordMachine.Shell.Arguments
import WordMachine.Shell.CommandLine
import WordMachine.Shell.Place
import WordMachine.Shell.Files
import WordMachine.Shell.Standard
import WordMachine.Main
import WordMachine.Proofs.Except
import WordMachine.Proofs.Memory.Bytes
import WordMachine.Proofs.Memory.BitList
import WordMachine.Proofs.Memory.ByteList
import WordMachine.Proofs.Text.Case
import WordMachine.Proofs.Text.Lines
import WordMachine.Proofs.Text.Digits
import WordMachine.Proofs.Text.Positional
import WordMachine.Proofs.Text.Base64Url
import WordMachine.Proofs.Memory.RoundTrip
import WordMachine.Proofs.Memory.DigitGroups
import WordMachine.Proofs.Memory.Base64Spelling
import WordMachine.Proofs.Assembly.Layout
import WordMachine.Proofs.Assembly.Labels
import WordMachine.Proofs.Assembly.Resolution
import WordMachine.Proofs.Assembly.Image
import WordMachine.Proofs.Assembly.Acceptance
import WordMachine.Proofs.Assembly.Decoding
import WordMachine.Proofs.Machine.Reference
import WordMachine.Proofs.Machine.Refinement
import WordMachine.Proofs.Assembly.Interpreter
import WordMachine.Proofs.Assembly.Simulation
import WordMachine.Proofs.Parsing.Combinators
import WordMachine.Proofs.Parsing.Repetitions
import WordMachine.Proofs.Parsing.Patterns
import WordMachine.Proofs.Parsing.MaximalMunch
import WordMachine.Proofs.Parsing.Offsets
import WordMachine.Proofs.Parsing.Expressions
import WordMachine.Proofs.Parsing.Relations
import WordMachine.Proofs.Assembly.Syntax
import WordMachine.Proofs.Assembly.Lexemes
import WordMachine.Proofs.Assembly.Recognition
import WordMachine.Proofs.Assembly.Truncation
import WordMachine.Proofs.Assembly.Stopping
import WordMachine.Proofs.Assembly.Confinement
import WordMachine.Proofs.Assembly.Interruption
import WordMachine.Proofs.Machine.Failure
import WordMachine.Proofs.Machine.Budget
import WordMachine.Proofs.Assembly.Printing
import WordMachine.Proofs.Assembly.Renaming
import WordMachine.Proofs.Assembly.Listing
import WordMachine.Proofs.Memory.HexDump
import WordMachine.Proofs.Assembly.Recasing
import WordMachine.Proofs.Assembly.Equivariance
import WordMachine.Proofs.Assembly.Concatenation
import WordMachine.Proofs.Assembly.Relocation
import WordMachine.Proofs.Assembly.Linkage
import WordMachine.Proofs.Machine.Footprint
import WordMachine.Proofs.Assembly.Padding
import WordMachine.Proofs.Machine.Reachability
import WordMachine.Proofs.Machine.StraightLine
import WordMachine.Proofs.Shell.Files
import WordMachine.Proofs.Shell.CommandLines
import WordMachine.Proofs.Shell.Sessions

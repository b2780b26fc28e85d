import Whitespace.Assembly.Basic
import Whitespace.Assembly.Decoding
import Whitespace.CommandLine.Command
import Whitespace.CommandLine.FileSystem
import Whitespace.CommandLine.Failure
import Whitespace.CommandLine.Options
import Whitespace.CommandLine.Outcome
import Whitespace.Instruction
import Whitespace.Json.Number
import Whitespace.Json.Quoted
import Whitespace.Json.Reader
import Whitespace.Json.Text
import Whitespace.Json.Token
import Whitespace.Label
import Whitespace.Listing.Printer
import Whitespace.Listing.Reader
import Whitespace.Log.Event
import Whitespace.Machine.Basic
import Whitespace.Machine.Fault
import Whitespace.Machine.Run
import Whitespace.Machine.Session
import Whitespace.Machine.Stream
import Whitespace.Main
import Whitespace.Opcode
import Whitespace.Program
import Whitespace.Proofs.Assembly.Comments
import Whitespace.Proofs.Assembly.Concatenation
import Whitespace.Proofs.Assembly.DecodeLog
import Whitespace.Proofs.Assembly.Decoding
import Whitespace.Proofs.Assembly.Disassembly
import Whitespace.Proofs.Assembly.Errors
import Whitespace.Proofs.Assembly.Grammar
import Whitespace.Proofs.Assembly.LabelErrors
import Whitespace.Proofs.Assembly.Linking
import Whitespace.Proofs.Assembly.Literals
import Whitespace.Proofs.Assembly.Relabelling
import Whitespace.Proofs.Assembly.Script
import Whitespace.Proofs.Assembly.Stopping
import Whitespace.Proofs.Assembly.SyntaxErrors
import Whitespace.Proofs.Assembly.WellFormed
import Whitespace.Proofs.Code
import Whitespace.Proofs.CommandLine.Files
import Whitespace.Proofs.CommandLine.Pipeline
import Whitespace.Proofs.Json.Number
import Whitespace.Proofs.Json.Quoted
import Whitespace.Proofs.Json.Reader
import Whitespace.Proofs.Json.Text
import Whitespace.Proofs.Listing.RoundTrip
import Whitespace.Proofs.Machine.Calculation
import Whitespace.Proofs.Machine.Characters
import Whitespace.Proofs.Machine.Clamping
import Whitespace.Proofs.Machine.Control
import Whitespace.Proofs.Machine.ControlFlow
import Whitespace.Proofs.Machine.Division
import Whitespace.Proofs.Machine.Embedding
import Whitespace.Proofs.Machine.Execution
import Whitespace.Proofs.Machine.Faults
import Whitespace.Proofs.Machine.Flushing
import Whitespace.Proofs.Machine.Input
import Whitespace.Proofs.Machine.Isolation
import Whitespace.Proofs.Machine.LabelLevel
import Whitespace.Proofs.Machine.LabelNames
import Whitespace.Proofs.Machine.Lines
import Whitespace.Proofs.Machine.Numbers
import Whitespace.Proofs.Machine.Output
import Whitespace.Proofs.Machine.ReadAhead
import Whitespace.Proofs.Machine.ReadBack
import Whitespace.Proofs.Machine.RunLog
import Whitespace.Proofs.Machine.Stores
import Whitespace.Proofs.Machine.StraightLine
import Whitespace.Proofs.Machine.Termination
import Whitespace.Proofs.Machine.Trace
import Whitespace.Proofs.Machine.Truncation
import Whitespace.Proofs.Source.Beginning
import Whitespace.Proofs.Source.Cursor
import Whitespace.Proofs.Source.Located
import Whitespace.Proofs.Source.Numeral
import Whitespace.Proofs.Source.Reading
import Whitespace.Proofs.Text.Decimal
import Whitespace.Proofs.Text.Decoded
import Whitespace.Proofs.Text.Lossy
import Whitespace.Proofs.Text.Utf8
import Whitespace.Source.Cursor
import Whitespace.Source.Spelling
import Whitespace.Symbol
import Whitespace.Text.Decimal
import Whitespace.Text.Printable
import Whitespace.Text.Utf8

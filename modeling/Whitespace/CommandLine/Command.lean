import Whitespace.Assembly.Basic
import Whitespace.CommandLine.Failure
import Whitespace.CommandLine.Options
import Whitespace.Listing.Printer
import Whitespace.Machine.Run

/-!
# The command

What the command does with its options, stage by stage, on any surroundings that
can read and write files, keep a log and run a program.  A stage that fails is the
last one, and the listing is written before the program is run.
-/

namespace Whitespace.CommandLine

/-- What the command asks of its surroundings. -/
structure Surroundings (m : Type → Type) where
  readFile : String → m (Except FileError (List UInt8))
  writeFile : String → List UInt8 → m (Except WriteError Unit)
  /-- Enters events into the log, down to a level of detail. -/
  report : Log → m Unit
  /-- Runs a program on the standard streams, logging down to a level of detail. -/
  run : Program → Level → m (Except Fault Unit)

namespace Options

def level (o : Options) : Level :=
  match o.verbose with
  | 0 => .warn
  | 1 => .debug
  | _ => .trace

def source (o : Options) (content : List UInt8) : Except Failure (List UInt8) :=
  if o.mnemonic then
    match Utf8.decode content with
    | .ok text => .ok (Mnemonic.translate text)
    | .error e => .error (.notText e)
  else .ok content

/-- Goes on if a step succeeds, and fails with its error otherwise. -/
def attempt {m : Type → Type} [Monad m] {ε α : Type} (failure : ε → Failure)
    (step : m (Except ε α)) : ExceptT Failure m α :=
  ExceptT.mk (Except.mapError failure <$> step)

/-! ## Stages -/

variable {m : Type → Type} [Monad m] (o : Options) (s : Surroundings m)

/-- Reads the source. -/
def load : ExceptT Failure m (List UInt8) := do
  let content ← attempt (.reading o.program) (s.readFile o.program)
  attempt id (pure (o.source content))

/-- Assembles the source. -/
def build (source : List UInt8) : ExceptT Failure m Program := do
  let (result, log) := assembleLogged source { limit := o.level }
  s.report log
  let program ← attempt (.assembling o.program) (pure result)
  s.report (Log.record { limit := o.level } .info fun _ => .assembled program.size)
  return program

/-- Writes the listing if it is asked for. -/
def list (program : Program) : ExceptT Failure m Unit := do
  if let some path := o.emitJson then
    attempt (.writing path) (s.writeFile path (Utf8.encode program.listing))

/-- Runs the program unless it is only to be checked. -/
def execute (program : Program) : ExceptT Failure m Unit := do
  if !o.check then
    attempt .running (s.run program o.level)

def perform : ExceptT Failure m Unit := do
  let source ← o.load s
  let program ← o.build s source
  o.list s program
  o.execute s program

end Options

def versionText : String := "wsvm-rust 0.1.0"

def usageText : String :=
  "Usage: wsvm-rust [OPTIONS] <PROGRAM>

Arguments:
  <PROGRAM>  Whitespace program to run

Options:
      --mnemonic          Read the program as S/T/L notation instead of raw whitespace
      --emit-json <FILE>  Write the assembled program listing as JSON
      --check             Assemble only, do not run
  -v, --verbose...        Log verbosity on stderr (-v debug, -vv trace)
  -h, --help              Print help
  -V, --version           Print version
"

end Whitespace.CommandLine

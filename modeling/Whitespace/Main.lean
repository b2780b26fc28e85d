import Whitespace.CommandLine.Outcome

/-!
# The executable

The command on real files and streams.  No more of the input is read than the
next instruction consumes, and output is passed on as it is written.
-/

namespace Whitespace.CommandLine

/-- The error of the operating system with a code, which some calls give negated. -/
def FileError.ofCode (code : UInt32) (details : String) : FileError :=
  match if code < 0x80000000 then code else -code with
  | 2 => .notFound
  | 20 => .notADirectory
  | 21 => .isADirectory
  | 28 => .noSpace
  | 36 => .nameTooLong
  | code => .other s!"{details.capitalize} (os error {code})"

/-- The error of the operating system that stopped a step. -/
def FileError.ofSystem : IO.Error → FileError
  | .noFileOrDirectory _ code details | .interrupted _ code details
  | .invalidArgument _ code details | .permissionDenied _ code details
  | .resourceExhausted _ code details | .inappropriateType _ code details
  | .alreadyExists _ code details | .noSuchThing _ code details | .resourceBusy code details
  | .resourceVanished code details | .unsupportedOperation code details
  | .unsatisfiedConstraints code details | .illegalOperation code details
  | .protocolError code details | .timeExpired code details
  | .hardwareFault code details | .otherError code details => .ofCode code details
  | e => .other (toString e)

/-- Performs a step and gives its error as a value. -/
def tryFile {α : Type} (step : IO α) : IO (Except FileError α) :=
  try return .ok (← step) catch e => return .error (.ofSystem e)

/-- Creates a file, or empties it, and writes to it. -/
def createFile (path : String) (content : List UInt8) : IO (Except WriteError Unit) := do
  match ← tryFile (IO.FS.Handle.mk path .write) with
  | .error e => return .error ⟨.creating, e⟩
  | .ok file =>
    let written ← tryFile do
      file.write content.toByteArray
      file.flush
    return written.mapError (⟨.ofContent content, ·⟩)

def printLog (log : Log) : IO Unit := do
  for e in log.events do
    (← IO.getStderr).putStr (eventLine e)

/-- Reads bytes from the standard input as long as the input lacks any. -/
partial def supply (lacks : Input → Bool) (i : Input) : IO Input := do
  if !lacks i then return i
  let chunk ← (← IO.getStdin).read 1
  if chunk.isEmpty then return i
  supply lacks { i with bytes := i.bytes ++ chunk.toList }

/-- Supplies what the next instruction of a program reads. -/
def supplyNext (p : Program) (s : State) : IO State := do
  match p.get? s.pc with
  | some (.op .readChar) => return { s with input := ← supply Input.lacksChar s.input }
  | some (.op .readNum) => return { s with input := ← supply Input.lacksLine s.input }
  | _ => return s

/-- Passes on what was written and logged. -/
def passOn (s : State) (log : Log) : IO (State × Log) := do
  let stdout ← IO.getStdout
  unless s.output.written.isEmpty do stdout.write ⟨s.output.written⟩
  unless s.output.flushes.isEmpty do stdout.flush
  printLog log
  return ({ s with output := {} }, { log with events := #[] })

/-- Takes turns until the execution ends. -/
partial def drive (p : Program) (s : State) (log : Log) : IO (Except Fault Unit) := do
  match p.turn (← supplyNext p s) log with
  | .next s log =>
    let (s, log) ← passOn s log
    drive p s log
  | .done ending s log =>
    let r := ending.settle s log
    let _ ← passOn r.state r.log
    return r.result

/-- The surroundings that the operating system offers. -/
def systemSurroundings : Surroundings IO where
  readFile path := tryFile (IO.FS.readBinFile path >>= fun content => pure content.toList)
  writeFile := createFile
  report := printLog
  run program level := drive program {} { limit := level }

end Whitespace.CommandLine

open Whitespace.CommandLine in
def main (args : List String) : IO UInt32 := do
  match Request.ofArgs args with
  | .help => IO.print usageText; return 0
  | .version => IO.println versionText; return 0
  | .refused e => IO.eprint s!"error: {e.message}\n\n{usageText}"; return 2
  | .perform options =>
    match ← (options.perform systemSurroundings).run with
    | .ok () => return 0
    | .error f => IO.eprint f.report; return 1

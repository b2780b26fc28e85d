import Whitespace.CommandLine.Command
import Whitespace.CommandLine.FileSystem

/-!
# Outcomes

What the command leaves behind when it is started in a directory with an input,
computed without performing anything.
-/

namespace Whitespace.CommandLine

/-- What surrounds the command: the files, as they are seen from the directory that
it is started in, and its streams. -/
structure World (F : Type := FileTree) where
  directory : F
  input : Input := {}
  output : Output := {}
  errors : String := ""

/-- The line of an event, with the levels aligned to the right. -/
def eventLine (e : Event) : String :=
  let name := e.level.name
  String.ofList (List.replicate (5 - name.length) ' ') ++ name ++ " " ++ e.message ++ "\n"

namespace World

variable {F : Type}

/-- Enters a log into the standard error output. -/
def report (w : World F) (log : Log) : World F :=
  { w with errors := w.errors ++ String.join (log.events.toList.map eventLine) }

/-- Reads a device to its end, if it has one. -/
def readDevice (w : World F) : Device → Option (Except FileError (List UInt8) × World F)
  | .null => some (.ok [], w)
  | .input =>
    let result :=
      match w.input.ending with
      | .closed => .ok w.input.bytes
      | .broken => .error (.other StreamFault.readFailed.message)
    some (result, { w with input := w.input.advance w.input.bytes.length })
  | .full | .output | .errors => none

/-- Writes to a device.  What goes into the standard input can be read from it. -/
def writeDevice (w : World F) (content : List UInt8) : Device → Except FileError Unit × World F
  | .null => (.ok (), w)
  | .full => (.error .noSpace, w)
  | .input => (.ok (), { w with input := { w.input with bytes := w.input.bytes ++ content } })
  | .output =>
    let (result, output) := w.output.write content
    (result.mapError fun e => .other e.message, { w with output })
  | .errors => (.ok (), { w with errors := w.errors ++ Utf8.decodeLossy content })

variable [FileSystem F]

def readFile (w : World F) (path : String) :
    Option (Except FileError (List UInt8) × World F) :=
  match FileSystem.read w.directory path with
  | .error e => some (.error e, w)
  | .ok (.file content) => some (.ok content, w)
  | .ok (.device device) => w.readDevice device

/-- Writes to what was created. -/
def writeOpened (w : World F) (content : List UInt8) :
    Opened (List UInt8 → Except FileError Unit × F) → Except FileError Unit × World F
  | .file write =>
    let (result, directory) := write content
    (result, { w with directory })
  | .device device => w.writeDevice content device

def writeFile (w : World F) (path : String) (content : List UInt8) :
    Except WriteError Unit × World F :=
  match FileSystem.create w.directory path with
  | .error e => (.error ⟨.creating, e⟩, w)
  | .ok opened =>
    let (result, w) := w.writeOpened content opened
    (result.mapError (⟨.ofContent content, ·⟩), w)

/-- The surroundings that a world offers.  A file without an end has no content,
and a run that does not end within `fuel` turns has no outcome. -/
def surroundings (fuel : Nat) : Surroundings (StateT (World F) Option) where
  readFile path w := w.readFile path
  writeFile path content w := some (w.writeFile path content)
  report log := modify fun w => w.report log
  run program level := do
    let w ← get
    let r ← (program.run fuel ⟨w.input, w.output⟩ { limit := level } : Option Report)
    set (World.report { w with input := r.state.input, output := r.state.output } r.log)
    return r.result

end World

/-- How the command ended. -/
inductive Exit where
  | success
  | failure
  | usage
  deriving DecidableEq, Repr

def Exit.status : Exit → Nat
  | success => 0
  | failure => 1
  | usage => 2

section

variable {F : Type} [FileSystem F] (fuel : Nat) (w : World F)

def Options.outcome (o : Options) : Option (Exit × World F) := do
  let (result, w) ← (o.perform (World.surroundings fuel)).run.run w
  match result with
  | .ok () => return (.success, w)
  | .error f => return (.failure, { w with errors := w.errors ++ f.report })

/-- Does what arguments ask for. -/
def Request.outcome : Request → Option (Exit × World F)
  | .help => some (.success, { w with output := (w.output.write (Utf8.encode usageText)).2 })
  | .version =>
    some (.success, { w with output := (w.output.write (Utf8.encode (versionText ++ "\n"))).2 })
  | .refused e => some (.usage, { w with errors := s!"error: {e.message}\n\n{usageText}" })
  | .perform options => options.outcome fuel w

end

end Whitespace.CommandLine

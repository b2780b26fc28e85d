import Whitespace.Assembly.Decoding
import Whitespace.Machine.Fault
import Whitespace.Text.Utf8

/-!
# Failures

How a command that does not succeed reports why: what it was about to do, and
the causes from the outermost to the innermost.
-/

namespace Whitespace.CommandLine

/-- Why a file cannot be opened, read or written. -/
inductive FileError where
  | notFound
  | notADirectory
  | isADirectory
  | noSpace
  | nameTooLong
  | other (text : String)
  deriving DecidableEq, Repr

def FileError.message : FileError → String
  | notFound => "No such file or directory (os error 2)"
  | notADirectory => "Not a directory (os error 20)"
  | isADirectory => "Is a directory (os error 21)"
  | noSpace => "No space left on device (os error 28)"
  | nameTooLong => "File name too long (os error 36)"
  | other text => text

/-- A step on the way of a listing into its file. -/
inductive WriteStep where
  | creating
  /-- The listing is printed into a buffer, which is written as often as it is full. -/
  | printing
  | finishing
  deriving DecidableEq, Repr

/-- The number of bytes that the buffer of a listing holds. -/
def WriteStep.bufferSize : Nat := 8192

/-- The step in which bytes of a content are written first. -/
def WriteStep.ofContent (content : List UInt8) : WriteStep :=
  if bufferSize < content.length then printing else finishing

/-- Why a listing does not get into its file. -/
structure WriteError where
  step : WriteStep
  error : FileError
  deriving DecidableEq, Repr

/-- Why a command does not succeed. -/
inductive Failure where
  | reading (path : String) (error : FileError)
  /-- The source is in letter notation but no text. -/
  | notText (error : Utf8.Malformed)
  | assembling (path : String) (error : AssemblyError)
  | writing (path : String) (error : WriteError)
  | running (fault : Fault)
  deriving DecidableEq, Repr

namespace Failure

/-- What was about to be done. -/
def context : Failure → String
  | reading path _ => s!"Reading {path}"
  | notText _ => "Mnemonic source is not UTF-8"
  | assembling path _ => s!"Assembling {path}"
  | writing _ _ => "Writing program listing"
  | running _ => "Running program"

/-- The causes, the outermost first.  A stream has its own word on a fault. -/
def causes : Failure → List String
  | reading _ error => [error.message]
  | notText error => [error.message]
  | assembling _ error => [error.message]
  | writing path ⟨.creating, error⟩ => [s!"Creating {path}", error.message]
  | writing _ ⟨.printing, error⟩ => ["Serialising program listing", error.message]
  | writing path ⟨.finishing, error⟩ => [s!"Writing {path}", error.message]
  | running (.stream cause) => [(Fault.stream cause).message, cause.message]
  | running fault => [fault.message]

/-- A cause behind its mark.  Its further lines are indented as far as the first. -/
def indented (mark : String) (cause : String) : String :=
  let margin := "\n" ++ String.ofList (List.replicate mark.length ' ')
  mark ++ margin.intercalate (cause.splitOn "\n") ++ "\n"

/-- The text of the failure.  Causes are numbered if there are several. -/
def report (f : Failure) : String :=
  let causes :=
    match f.causes with
    | [cause] => [indented "    " cause]
    | causes => causes.mapIdx fun i cause => indented s!"    {i}: " cause
  s!"Error: {f.context}\n\nCaused by:\n" ++ String.join causes

end Failure

end Whitespace.CommandLine

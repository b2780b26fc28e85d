import Whitespace.Text.Printable

/-!
# Faults

Why a running program is stopped.
-/

namespace Whitespace

/-- What goes wrong on an input or output stream. -/
inductive StreamFault where
  /-- The bytes at hand spell no character. -/
  | notUtf8
  /-- The input ends inside of a character. -/
  | cutOff
  | readFailed
  | writeFailed
  | flushFailed
  deriving DecidableEq, Repr

def StreamFault.message : StreamFault → String
  | notUtf8 => "input is not valid UTF-8"
  | cutOff => "failed to fill whole buffer"
  | readFailed => "read failed"
  | writeFailed => "write failed"
  | flushFailed => "flush failed"

/-- Why a running program is stopped. -/
inductive Fault where
  /-- An instruction needs more values than the data stack holds. -/
  | stackUnderflow
  | callStackUnderflow
  | divisionByZero
  /-- A line, given here without its end, is no number. -/
  | notANumber (line : String)
  /-- There is no character left to read. -/
  | inputExhausted
  | stream (cause : StreamFault)
  deriving DecidableEq, Repr

def Fault.message : Fault → String
  | stackUnderflow => "data stack underflow"
  | callStackUnderflow => "return with an empty call stack"
  | divisionByZero => "division by zero"
  | notANumber line => s!"invalid numeric input: {Text.quote line}"
  | inputExhausted => "input stream exhausted while reading a character"
  | stream cause => s!"i/o error: {cause.message}"

end Whitespace

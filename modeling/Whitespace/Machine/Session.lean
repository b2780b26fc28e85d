import Whitespace.Machine.Run

/-!
# Sessions

A session runs one program again and again, on a machine of its own or on other
ones.  Some runs bring their own input, and some read on from an input that the
session keeps.
-/

namespace Whitespace

/-- A program, a machine to run it on, and an input that runs share. -/
structure Session where
  program : Program
  /-- The machine, as the latest run on it left it. -/
  machine : Machine := {}
  /-- The shared input, as the latest run that reads from it left it. -/
  shared : Input := {}

namespace Session

/-- A way to run the program. -/
inductive Action where
  /-- On the session's machine, with streams of its own. -/
  | run (console : Console)
  /-- On the session's machine, reading on from the shared input. -/
  | runShared (output : Output)
  /-- On another machine, with streams of its own. -/
  | runElsewhere (console : Console)

/-- Runs the program, and keeps what the run leaves for the next ones. -/
def perform (s : Session) (fuel : Nat) (log : Log) : Action → Option (Report × Session)
  | .run console => do
    let r ← s.machine.run s.program fuel console log
    return (r, { s with machine := r.state.toMachine })
  | .runShared output => do
    let r ← s.machine.run s.program fuel ⟨s.shared, output⟩ log
    return (r, { s with machine := r.state.toMachine, shared := r.state.input })
  | .runElsewhere console => do
    let r ← s.program.run fuel console log
    return (r, s)

end Session

end Whitespace

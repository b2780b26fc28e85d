import Whitespace.Log.Event
import Whitespace.Machine.Basic

/-!
# Runs

A run executes instructions from index zero until it comes to an exit, goes
past the last instruction, or is stopped by a fault.  It may also never end, so
it is given a number of turns, and no answer means only that they did not
suffice.  Whatever ended it, the output is flushed once more.
-/

namespace Whitespace

/-- How the execution of a program ended. -/
inductive Ending where
  | exited
  | ranPast
  | fault (f : Fault)
  deriving DecidableEq, Repr

/-- What one turn of an execution leads to. -/
inductive Turn where
  | next (s : State) (log : Log)
  | done (ending : Ending) (s : State) (log : Log)

/-- One turn: fetches an instruction, if there is one, and executes it. -/
def Program.turn (p : Program) (s : State) (log : Log) : Turn :=
  match p.get? s.pc with
  | none => .done .ranPast s (log.record .warn fun _ => .ranPast s.pc)
  | some i =>
    let log := log.record .trace fun _ => .executing s.pc i s.stack.length
    match i.execute { s with pc := s.pc + 1 } with
    | .next s => .next s log
    | .exit s => .done .exited s (log.record .debug fun _ => .exited s.pc s.stack.length)
    | .fault f s => .done (.fault f) s log

/-- Takes turns until the execution ends, or `fuel` of them. -/
def Program.execute (p : Program) :
    (fuel : Nat) → State → Log → Option (Ending × State × Log)
  | 0, _, _ => none
  | fuel + 1, s, log =>
    match p.turn s log with
    | .next s log => p.execute fuel s log
    | .done ending s log => some (ending, s, log)

/-- What a run leaves behind. -/
structure Report where
  /-- The fault of the run, or of the last flush if there was no other. -/
  result : Except Fault Unit
  /-- The machine and its streams after the run. -/
  state : State
  log : Log

/-- Ends a run: flushes the output once more and settles the result. -/
def Ending.settle (ending : Ending) (s : State) (log : Log) : Report :=
  let (flushed, output) := s.output.flush
  let state := { s with output }
  match ending with
  | .fault f => ⟨.error f, state, log.record .debug fun _ => .aborted s.pc f⟩
  | _ => ⟨flushed.mapError .stream, state, log⟩

namespace Machine

/-- Empties the machine and goes back to the first instruction. -/
def reset (m : Machine) : Machine :=
  { m with stack := [], heap := .empty, calls := [], pc := 0 }

/-- Runs a program on a machine, whatever earlier runs have left in it. -/
def run (m : Machine) (p : Program) (fuel : Nat) (console : Console) (log : Log) :
    Option Report :=
  (p.execute fuel { toMachine := m.reset, toConsole := console } log).map
    fun (ending, s, log) => ending.settle s log

end Machine

/-- Runs a program on a new machine. -/
def Program.run (p : Program) (fuel : Nat) (console : Console) (log : Log) :
    Option Report :=
  Machine.run {} p fuel console log

end Whitespace

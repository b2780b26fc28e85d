import Whitespace.Instruction
import Whitespace.Machine.Fault
import Whitespace.Text.Decimal

/-!
# Events

What the assembler and the machine report about their work.  An event has a
level of detail, and a reader of the log chooses down to which level events are
kept.
-/

namespace Whitespace

/-- A level of detail. -/
inductive Level where
  | warn
  | info
  | debug
  | trace
  deriving DecidableEq, Repr, Inhabited

namespace Level

/-- The place of the level; more detail comes later. -/
def rank : Level → Nat
  | warn => 0
  | info => 1
  | debug => 2
  | trace => 3

/-- Whether a log of the second level keeps events of the first. -/
def keptAt (level limit : Level) : Bool := level.rank ≤ limit.rank

def name : Level → String
  | warn => "WARN"
  | info => "INFO"
  | debug => "DEBUG"
  | trace => "TRACE"

/-- A log of every detail keeps all events. -/
theorem keptAt_trace (level : Level) : level.keptAt .trace = true := by
  cases level <;> rfl

end Level

/-- The label as a log shows it, with its text in quotes. -/
def Label.logged (l : Label) : String := s!"Label({Text.quote l.text})"

/-- The target as a log shows it. -/
def Target.logged (t : Target) : String :=
  s!"Target \x7b label: {t.label.logged}, index: {t.index} \x7d"

/-- The instruction as a log shows it, given how it shows what a branch carries. -/
def Instruction.logged {τ : Type} (target : τ → String) : Instruction τ → String
  | push n => s!"Push({String.ofList (Decimal.ofInt n.toInt)})"
  | mark l => s!"Mark({l.logged})"
  | branch kind t => s!"{kind.name}({target t})"
  | op o => o.name

/-- Something that the assembler or the machine reports. -/
inductive Event where
  /-- A command was decoded, when there were `index` instructions before it. -/
  | decoded (index : Nat) (command : Command)
  | decodedSource (instructions labels : Nat)
  | assembled (instructions : Nat)
  | executing (pc : Nat) (instruction : Instruction Target) (depth : Nat)
  | ranPast (pc : Nat)
  | exited (pc depth : Nat)
  | aborted (pc : Nat) (fault : Fault)
  deriving DecidableEq, Repr

namespace Event

def level : Event → Level
  | decoded .. => .trace
  | decodedSource .. => .debug
  | assembled .. => .info
  | executing .. => .trace
  | ranPast .. => .warn
  | exited .. => .debug
  | aborted .. => .debug

def message : Event → String
  | decoded index command => s!"decoded index={index} cmd={command.logged Label.logged}"
  | decodedSource instructions labels =>
    s!"decoded source instructions={instructions} labels={labels}"
  | assembled instructions => s!"assembled instructions={instructions}"
  | executing pc instruction depth =>
    s!"exec pc={pc} ins={instruction.logged Target.logged} depth={depth}"
  | ranPast pc => s!"ran past the last instruction without exit pc={pc}"
  | exited pc depth => s!"exit pc={pc} depth={depth}"
  | aborted pc fault => s!"run aborted pc={pc} error={fault.message}"

def line (e : Event) : String := s!"{e.level.name} {e.message}"

end Event

/-- The events down to a level of detail, in the order in which they came. -/
structure Log where
  limit : Level
  events : Array Event := #[]
  deriving DecidableEq, Repr

namespace Log

/-- Enters an event of a level.  It is not looked at if the log does not keep
events of that level. -/
def record (log : Log) (level : Level) (event : Unit → Event) : Log :=
  if level.keptAt log.limit then { log with events := log.events.push (event ()) } else log

def recordAll (log : Log) (events : List Event) : Log :=
  events.foldl (fun log e => log.record e.level fun _ => e) log

/-- A log holds what its level keeps of the events that were entered. -/
theorem events_recordAll (log : Log) (events : List Event) :
    (log.recordAll events).events.toList =
      log.events.toList ++ events.filter fun e => e.level.keptAt log.limit := by
  induction events generalizing log with
  | nil => simp [recordAll]
  | cons e events ih =>
    have hstep : log.recordAll (e :: events) =
        (log.record e.level fun _ => e).recordAll events := rfl
    rw [hstep, ih]
    by_cases h : e.level.keptAt log.limit = true <;> simp [record, h]

theorem events_recordAll_trace (events : List Event) :
    (recordAll ⟨.trace, #[]⟩ events).events.toList = events := by
  rw [events_recordAll, List.nil_append, List.filter_eq_self]
  exact fun e _ => e.level.keptAt_trace

end Log

end Whitespace

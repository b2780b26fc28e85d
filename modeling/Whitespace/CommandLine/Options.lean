/-!
# Options

The arguments of the command line are read from left to right.  A path is taken
in when the next argument is understood, or at the end, so an argument that is
not understood is reported before a path that is no good.
-/

namespace Whitespace.CommandLine

/-- What the arguments ask for. -/
structure Options where
  program : String
  mnemonic : Bool := false
  emitJson : Option String := none
  check : Bool := false
  /-- How often more detail is asked for, at most 255 times. -/
  verbose : Nat := 0
  deriving DecidableEq, Repr

/-- Why arguments are refused. -/
inductive UsageError where
  /-- An argument that is neither an option nor expected. -/
  | unknownArgument
  /-- A path that is missing behind its option, or empty. -/
  | invalidValue
  /-- A value for an option that takes none. -/
  | tooManyValues
  | argumentConflict
  | missingArgument
  deriving DecidableEq, Repr

def UsageError.message : UsageError → String
  | unknownArgument => "unexpected argument"
  | invalidValue => "a value is required"
  | tooManyValues => "unexpected value for a flag"
  | argumentConflict => "an argument cannot be used multiple times"
  | missingArgument => "the path of a program is required"

/-- What comes of the arguments. -/
inductive Request where
  | perform (options : Options)
  | help
  | version
  | refused (error : UsageError)
  deriving DecidableEq, Repr

/-- A path that has been read but not taken in. -/
inductive Pending where
  | program (path : String)
  | emitJson (path : Option String)
  deriving DecidableEq, Repr

/-- An option that takes no value. -/
inductive Flag where
  | mnemonic
  | check
  | verbose
  | help
  | version
  deriving DecidableEq, Repr

namespace Flag

def ofName? : String → Option Flag
  | "mnemonic" => some mnemonic
  | "check" => some check
  | "verbose" => some verbose
  | "help" => some help
  | "version" => some version
  | _ => none

def ofLetter? : Char → Option Flag
  | 'v' => some verbose
  | 'h' => some help
  | 'V' => some version
  | _ => none

end Flag

/-- How far the arguments have been read. -/
structure Scan where
  program : Option String := none
  mnemonic : Bool := false
  emitJson : Option String := none
  check : Bool := false
  verbose : Nat := 0
  /-- The path that is to be taken in. -/
  pending : Option Pending := none
  /-- Whether the options have ended. -/
  literal : Bool := false
  deriving DecidableEq, Repr

namespace Scan

def takeEmitJson (s : Scan) (path : String) : Except Request Scan :=
  if s.emitJson.isSome then .error (.refused .argumentConflict)
  else if path = "" then .error (.refused .invalidValue)
  else .ok { s with emitJson := some path }

/-- Takes in the path that was read before, if there is one. -/
def settle (s : Scan) : Except Request Scan :=
  let settled := { s with pending := none }
  match s.pending with
  | none => .ok settled
  | some (.program path) =>
    if path = "" then .error (.refused .invalidValue)
    else .ok { settled with program := some path }
  | some (.emitJson none) => .error (.refused .invalidValue)
  | some (.emitJson (some path)) => settled.takeEmitJson path

def takeFlag (s : Scan) (flag : Flag) : Except Request Scan := do
  let s ← s.settle
  match flag with
  | .mnemonic =>
    if s.mnemonic then throw (.refused .argumentConflict) else return { s with mnemonic := true }
  | .check =>
    if s.check then throw (.refused .argumentConflict) else return { s with check := true }
  | .verbose => return { s with verbose := min 255 (s.verbose + 1) }
  | .help => throw .help
  | .version => throw .version

/-- Takes in an option by its long name, with the value that is attached to it. -/
def takeOption (s : Scan) (name : String) (value : Option String) : Except Request Scan :=
  if name = "emit-json" then do
    let s ← s.settle
    match value with
    | some path => s.takeEmitJson path
    | none => return { s with pending := some (.emitJson none) }
  else
    match Flag.ofName? name, value with
    | some flag, none => s.takeFlag flag
    | some _, some _ => .error (.refused .tooManyValues)
    | none, _ => .error (.refused .unknownArgument)

/-- Takes in flags by their letters. -/
def takeLetters (s : Scan) (letters : List Char) : Except Request Scan :=
  letters.foldlM
    (fun s c =>
      match Flag.ofLetter? c with
      | some flag => s.takeFlag flag
      | none => .error (.refused .unknownArgument))
    s

/-- Takes in an argument that is no option, the path of the source. -/
def takePositional (s : Scan) (path : String) : Except Request Scan :=
  match s.program, s.pending with
  | some _, _ | none, some (.program _) => .error (.refused .unknownArgument)
  | none, _ => return { ← s.settle with pending := some (.program path) }

/-- Takes in an argument.  One that follows the option for the listing is its
path, unless it looks like an option itself. -/
def take (s : Scan) (arg : String) : Except Request Scan :=
  if s.literal then s.takePositional arg
  else
    match arg.toList with
    | ['-', '-'] => .ok { s with literal := true }
    | '-' :: '-' :: rest =>
      let value := (rest.dropWhile (· != '=')).tail?
      s.takeOption (String.ofList (rest.takeWhile (· != '='))) (value.map String.ofList)
    | '-' :: c :: rest => s.takeLetters (c :: rest)
    | _ =>
      if s.pending = some (.emitJson none) then
        .ok { s with pending := some (.emitJson (some arg)) }
      else s.takePositional arg

/-- The options once all arguments are read. -/
def finish (s : Scan) : Except Request Options := do
  let s ← s.settle
  match s.program with
  | none => throw (.refused .missingArgument)
  | some program =>
    return {
      program, mnemonic := s.mnemonic, emitJson := s.emitJson, check := s.check,
      verbose := s.verbose }

end Scan

/-- Reads the arguments behind the program's name. -/
def Request.ofArgs (args : List String) : Request :=
  match args.foldlM Scan.take {} >>= Scan.finish with
  | .ok options => .perform options
  | .error request => request

end Whitespace.CommandLine

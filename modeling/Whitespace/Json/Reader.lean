import Whitespace.Json.Text

/-!
# Reading JSON

A reader takes lexemes from the front of a text and yields a value of some
type, or the first problem from the left.  Fields of objects that a type does
not know are skipped, whatever they hold.
-/

namespace Whitespace.Json

/-- Takes lexemes from the front and yields a value, or a problem. -/
abbrev Reader := StateT (List Lexeme) (Except Problem)

namespace Lexeme

/-- The problem of finding this lexeme, or the end of the text, where a value of
another type has to begin. -/
def misplaced : Option Lexeme → Problem
  | none => .ended
  | some (token t) => if t.closes || t = .colon || t = .comma then .malformed else .mismatch
  | some (real fits) => if fits then .mismatch else .malformed
  | some halfPair => .malformed
  | some (brokenString read _) => read
  | some (broken read _) => read

end Lexeme

namespace Reader

/-- The lexeme at the front, which stays there. -/
def peek : Reader (Option Lexeme) := return (← get).head?

def drop : Reader Unit := modify List.tail

/-- Fails where the text does not go on as it must. -/
def refuse {α : Type} : Reader α := do
  throw (if (← peek).isNone then .ended else .malformed)

/-- Fails where a value of another type begins. -/
def misplaced {α : Type} : Reader α := do
  throw (Lexeme.misplaced (← peek))

/-- Reads a punctuation mark, which has to come next. -/
def expect (t : Token) : Reader Unit := do
  if (← peek) = some (.token t) then drop else refuse

def string : Reader String := do
  match ← peek with
  | some (.token (.string text)) => drop; return text
  | _ => misplaced

/-- Reads the key of a field.  Anything but a string is refused at once. -/
def key : Reader String := do
  match ← peek with
  | some (.token (.string _)) | some .halfPair | some (.brokenString _ _) => string
  | _ => refuse

/-- Reads an integer between two bounds, both included. -/
def integer (low high : Int) : Reader Int := do
  match ← peek with
  | some (.token (.integer n)) =>
    if low ≤ n ∧ n ≤ high then drop; return n else throw .mismatch
  | _ => misplaced

def null : Reader Unit := do
  match ← peek with
  | some (.token .null) => drop
  | _ => misplaced

/-! ## Skipping a value -/

/-- An array or an object that a skipped value lies in. -/
inductive Frame where
  | array
  | object
  deriving DecidableEq, Repr

/-- What has to come next in a value that is skipped. -/
inductive Due where
  | value
  /-- The first element of the innermost frame, or its end. -/
  | first
  | key
  | colon
  /-- A comma or the end of the innermost frame. -/
  | more
  deriving DecidableEq, Repr

/-- What is due at the beginning of a frame's element. -/
def Frame.element : Frame → Due
  | array => .value
  | object => .key

/-- The token that ends a frame. -/
def Frame.closer : Frame → Token
  | array => .closeBracket
  | object => .closeBrace

/-- Skips one lexeme of a value that lies in the frames, the innermost first. -/
def skipValueLexeme (frames : List Frame) : Lexeme → Except Problem (Due × List Frame)
  | .token .openBracket => .ok (.first, .array :: frames)
  | .token .openBrace => .ok (.first, .object :: frames)
  | .token t => if t.closes || t = .colon || t = .comma then .error .malformed
    else .ok (.more, frames)
  | .real _ | .halfPair => .ok (.more, frames)
  | .brokenString _ skip | .broken _ skip => .error skip

/-- Skips the lexeme of a key in the frames. -/
def skipKeyLexeme (frames : List Frame) : Lexeme → Except Problem (Due × List Frame)
  | .token (.string _) | .halfPair => .ok (.colon, frames)
  | .brokenString _ skip => .error skip
  | _ => .error .malformed

/-- Skips one lexeme inside of frames, the innermost first. -/
def skipLexeme (due : Due) (frames : List Frame) (l : Lexeme) :
    Except Problem (Due × List Frame) :=
  match due, frames with
  | .value, frames => skipValueLexeme frames l
  | .key, frames => skipKeyLexeme frames l
  | .colon, frames => if l = .token .colon then .ok (.value, frames) else .error .malformed
  | .first, frame :: frames =>
    if l = .token frame.closer then .ok (.more, frames)
    else
      match frame with
      | .array => skipValueLexeme (frame :: frames) l
      | .object => skipKeyLexeme (frame :: frames) l
  | .more, frame :: frames =>
    if l = .token frame.closer then .ok (.more, frames)
    else if l = .token .comma then .ok (frame.element, frame :: frames)
    else .error .malformed
  | _, [] => .error .malformed

/-- Skips lexemes until a value inside of the frames is complete. -/
def skipFrom (due : Due) (frames : List Frame) : List Lexeme → Except Problem (List Lexeme)
  | [] => .error .ended
  | l :: rest =>
    match skipLexeme due frames l with
    | .error p => .error p
    | .ok (.more, []) => .ok rest
    | .ok (due, frames) => skipFrom due frames rest

/-- Skips a value of any shape. -/
def skip : Reader Unit := do
  set (← (skipFrom .value [] (← get) : Except Problem (List Lexeme)))

/-! ## Arrays and objects -/

/-- Reads the elements of an array from the second on, and its end.  Every
element takes at least one lexeme, so `fuel` need not exceed their number. -/
def moreElements {α : Type} (element : Reader α) (found : Array α) :
    (fuel : Nat) → Reader (Array α)
  | 0 => throw .malformed
  | fuel + 1 => do
    match ← peek with
    | some (.token .closeBracket) => drop; return found
    | some (.token .comma) =>
      drop
      moreElements element (found.push (← element)) fuel
    | _ => refuse

def array {α : Type} (element : Reader α) : Reader (Array α) := do
  match ← peek with
  | some (.token .openBracket) =>
    drop
    match ← peek with
    | some (.token .closeBracket) => drop; return #[]
    | _ =>
      let first ← element
      moreElements element #[first] ((← get).length + 1)
  | _ => misplaced

/-- Reads the fields of an object from one on, and its end.  A field is read by
its key, which is not followed by the colon yet. -/
def moreFields {σ : Type} (field : σ → String → Reader σ) (found : σ) :
    (fuel : Nat) → Reader σ
  | 0 => throw .malformed
  | fuel + 1 => do
    let found ← field found (← key)
    match ← peek with
    | some (.token .closeBrace) => drop; return found
    | some (.token .comma) =>
      drop
      moreFields field found fuel
    | _ => refuse

/-- Reads an object behind its opening brace, field by field. -/
def fields {σ : Type} (field : σ → String → Reader σ) (start : σ) : Reader σ := do
  match ← peek with
  | some (.token .closeBrace) => drop; return start
  | _ => moreFields field start ((← get).length + 1)

/-- Reads the value of a field that was not met before. -/
def once {α : Type} (value : Reader α) (met : Option α) : Reader (Option α) := do
  if met.isSome then throw .mismatch
  expect .colon
  return some (← value)

/-- Skips the value of a field that is not known. -/
def ignore : Reader Unit := do
  expect .colon
  skip

/-- Gives the value of a field that has to be there. -/
def require {α : Type} : Option α → Reader α
  | some a => return a
  | none => throw .mismatch

/-- Reads an element of a record that is written as an array.  An array that
ends too early is of another shape. -/
def element {α : Type} (isFirst : Bool) (value : Reader α) : Reader α := do
  match ← peek with
  | some (.token .closeBracket) => throw .mismatch
  | next =>
    if isFirst then value
    else if next = some (.token .comma) then
      drop
      if (← peek) = some (.token .closeBracket) then refuse
      value
    else refuse

/-- Reads the end of a record that is written as an array. -/
def endElements : Reader Unit := do
  if (← peek) = some (.token .comma) then throw .malformed
  expect .closeBracket

/-- Reads a whole text. -/
def run {α : Type} (reader : Reader α) (text : String) : Except Problem α := do
  let (a, rest) ← reader (lex text)
  if rest.isEmpty then return a else throw .malformed

end Reader

end Whitespace.Json

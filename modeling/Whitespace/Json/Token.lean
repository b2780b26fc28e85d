import Whitespace.Text.Decimal

/-!
# JSON tokens

The tokens that JSON text is written with, and the two ways to lay a sequence of
them out: compactly, and with one element on a line.

JSON text that is read is cut into lexemes from left to right.  A lexeme is a token, or
else a number or a string that has a form but no value here, or a place where the text
stops being JSON; nothing is read behind such a place.  A value may be read or merely
skipped.  Skipping looks at forms alone, so a place that is not JSON may be a different
problem for the two.
-/

namespace Whitespace.Json

/-- A token of JSON text. -/
inductive Token where
  | openBrace
  | closeBrace
  | openBracket
  | closeBracket
  | colon
  | comma
  | null
  | bool (b : Bool)
  | integer (n : Int)
  | string (text : String)
  deriving DecidableEq, Repr

/-- A character inside of a JSON string.  Quotes, backslashes and controls are
escaped; everything else stands for itself. -/
def escapeChar (c : Char) : List Char :=
  if c = '\x22' then ['\\', '\x22']
  else if c = '\\' then ['\\', '\\']
  else if c = '\x08' then ['\\', 'b']
  else if c = '\x0c' then ['\\', 'f']
  else if c = '\n' then ['\\', 'n']
  else if c = '\r' then ['\\', 'r']
  else if c = '\t' then ['\\', 't']
  else if c.toNat < 0x20 then
    ['\\', 'u', '0', '0', Nat.digitChar (c.toNat / 16), Nat.digitChar (c.toNat % 16)]
  else [c]

namespace Token

def text : Token → List Char
  | openBrace => ['\x7b']
  | closeBrace => ['\x7d']
  | openBracket => ['[']
  | closeBracket => [']']
  | colon => [':']
  | comma => [',']
  | null => ['n', 'u', 'l', 'l']
  | bool true => ['t', 'r', 'u', 'e']
  | bool false => ['f', 'a', 'l', 's', 'e']
  | integer n => Decimal.ofInt n
  | string text => '\x22' :: text.toList.flatMap escapeChar ++ ['\x22']

def opens : Token → Bool
  | openBrace | openBracket => true
  | _ => false

def closes : Token → Bool
  | closeBrace | closeBracket => true
  | _ => false

/-- The depth behind the token, given the depth before it. -/
def depthAfter (t : Token) (depth : Nat) : Nat :=
  if t.opens then depth + 1 else if t.closes then depth - 1 else depth

end Token

def compact (tokens : List Token) : String :=
  String.ofList (tokens.flatMap Token.text)

/-- The beginning of a new line at a depth, two spaces for each level. -/
def newline (depth : Nat) : List Char :=
  '\n' :: List.replicate (2 * depth) ' '

/-- The space between two tokens, at the depth behind the first.  Every element
begins a line, unless there is none; a key and its value share a line. -/
def gap (depth : Nat) (t u : Token) : List Char :=
  if t.opens then if u.closes then [] else newline depth
  else if u.closes then newline (depth - 1)
  else
    match t with
    | .comma => newline depth
    | .colon => [' ']
    | _ => []

/-- The text of tokens with one element on a line. -/
def pretty (tokens : List Token) : String :=
  String.ofList (go #[] 0 tokens).toList
where
  /-- Writes tokens from a depth on. -/
  go (written : Array Char) (depth : Nat) : List Token → Array Char
    | [] => written
    | [t] => written ++ t.text
    | t :: u :: rest =>
      let depth := t.depthAfter depth
      go (written ++ t.text ++ gap depth t u) depth (u :: rest)

/-! ## Lexemes -/

/-- Why a text cannot be read as a value of some type. -/
inductive Problem where
  /-- The text ends too early. -/
  | ended
  /-- The text is no JSON, or has a shape that is ruled out at once. -/
  | malformed
  /-- The text is JSON of another shape. -/
  | mismatch
  deriving DecidableEq, Repr

/-- A part of a JSON text. -/
inductive Lexeme where
  | token (t : Token)
  /-- A number that is no 64-bit integer, and whether it is in the range of
  double precision. -/
  | real (fits : Bool)
  /-- A string with half of a surrogate pair. -/
  | halfPair
  /-- A string that goes wrong, as a problem of reading and of skipping it. -/
  | brokenString (read skip : Problem)
  /-- Anything else that goes wrong. -/
  | broken (read skip : Problem)
  deriving DecidableEq, Repr

end Whitespace.Json

import Whitespace.Json.Token

/-!
# JSON strings

A string is first cut into characters and UTF-16 units up to its closing quote.
Skipping a string asks for no more.  Reading it joins the units, and the halves
of surrogate pairs have to match.
-/

namespace Whitespace.Json

/-- A part of a JSON string. -/
inductive StringPart where
  | char (c : Char)
  /-- A UTF-16 unit, given by its number. -/
  | unit (n : Nat)
  deriving DecidableEq, Repr

/-- The value of a hexadecimal digit. -/
def hexDigit? (c : Char) : Option Nat :=
  if c.isDigit then some (c.toNat - '0'.toNat)
  else if 'a' ≤ c ∧ c ≤ 'f' then some (c.toNat - 'a'.toNat + 10)
  else if 'A' ≤ c ∧ c ≤ 'F' then some (c.toNat - 'A'.toNat + 10)
  else none

/-- The value of four hexadecimal digits. -/
def hexUnit? (a b c d : Char) : Option Nat := do
  let a ← hexDigit? a
  let b ← hexDigit? b
  let c ← hexDigit? c
  let d ← hexDigit? d
  return ((a * 16 + b) * 16 + c) * 16 + d

/-- The character that a one-letter escape stands for. -/
def shortEscape? : Char → Option Char
  | '\x22' => some '\x22'
  | '\\' => some '\\'
  | '/' => some '/'
  | 'b' => some '\x08'
  | 'f' => some '\x0c'
  | 'n' => some '\n'
  | 'r' => some '\r'
  | 't' => some '\t'
  | _ => none

/-- The parts of a string up to its closing quote, and either what follows the
quote or the problem that keeps the string from being closed.  An escape by
number needs four more bytes, whichever they are. -/
def lexParts (parts : Array StringPart) :
    List Char → List StringPart × Except Problem (List Char)
  | [] => (parts.toList, .error .ended)
  | '\\' :: 'u' :: a :: b :: c :: d :: rest =>
    match hexUnit? a b c d with
    | some n => lexParts (parts.push (.unit n)) rest
    | none => (parts.toList, .error .malformed)
  | '\\' :: 'u' :: rest =>
    let left := rest.foldl (fun n c => n + c.utf8Size) 0
    (parts.toList, .error (if left < 4 then .ended else .malformed))
  | '\\' :: c :: rest =>
    match shortEscape? c with
    | some e => lexParts (parts.push (.char e)) rest
    | none => (parts.toList, .error .malformed)
  | c :: rest =>
    if c = '\x22' then (parts.toList, .ok rest)
    else if c = '\\' then (parts.toList, .error .ended)
    else if c.toNat < 0x20 then (parts.toList, .error .malformed)
    else lexParts (parts.push (.char c)) rest

/-- Joins the parts of a string.  The two halves of a surrogate pair stand for
one character, and neither may stand alone: `pending` is a first half that
waits for its second.  The end is the problem that closes the string off, if
there is one. -/
def joinParts (text : Array Char) (pending : Option Nat) (ending : Option Problem) :
    List StringPart → Except Problem String
  | [] =>
    match ending, pending with
    | some p, _ => .error p
    | none, some _ => .error .malformed
    | none, none => .ok (String.ofList text.toList)
  | .char c :: rest =>
    match pending with
    | some _ => .error .malformed
    | none => joinParts (text.push c) none ending rest
  | .unit n :: rest =>
    let second := 0xDC00 ≤ n && n ≤ 0xDFFF
    match pending with
    | some first =>
      if second then
        let code := 0x10000 + (first - 0xD800) * 0x400 + (n - 0xDC00)
        joinParts (text.push (Char.ofNat code)) none ending rest
      else .error .malformed
    | none =>
      if second then .error .malformed
      else if 0xD800 ≤ n && n ≤ 0xDBFF then joinParts text (some n) ending rest
      else joinParts (text.push (Char.ofNat n)) none ending rest

/-- Reads a string behind its opening quote. -/
def lexString (cs : List Char) : Except Lexeme (Lexeme × List Char) :=
  match lexParts #[] cs with
  | (parts, .ok rest) =>
    match joinParts #[] none none parts with
    | .ok text => .ok (.token (.string text), rest)
    | .error _ => .ok (.halfPair, rest)
  | (parts, .error p) =>
    match joinParts #[] none (some p) parts with
    | .ok _ => .error (.brokenString p p)
    | .error read => .error (.brokenString read p)

/-! ## What is left behind a string is shorter -/

theorem lexParts_length {parts : Array StringPart} {cs rest : List Char}
    {found : List StringPart} (h : lexParts parts cs = (found, .ok rest)) :
    rest.length ≤ cs.length := by
  fun_induction lexParts parts cs <;> simp_all <;> omega

theorem lexString_length {cs rest : List Char} {l : Lexeme}
    (h : lexString cs = .ok (l, rest)) : rest.length ≤ cs.length := by
  unfold lexString at h
  split at h
  · next hp =>
    have := lexParts_length hp
    split at h <;> cases h <;> exact this
  · split at h <;> cases h

end Whitespace.Json

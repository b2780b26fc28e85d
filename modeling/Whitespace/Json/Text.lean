import Whitespace.Json.Number
import Whitespace.Json.Quoted

/-!
# JSON text

The lexemes of a whole text, which ends with its last character or at the first
place where it stops being JSON.
-/

namespace Whitespace.Json

/-- Reads the rest of a word such as `null`. -/
def lexWord (t : Token) : List Char → List Char → Except Lexeme (Lexeme × List Char)
  | [], cs => .ok (.token t, cs)
  | _ :: _, [] => .error (.broken .ended .ended)
  | w :: ws, c :: cs =>
    if w = c then lexWord t ws cs else .error (.broken .malformed .malformed)

def lexOne (c : Char) (rest : List Char) : Except Lexeme (Lexeme × List Char) :=
  match c with
  | '\x7b' => .ok (.token .openBrace, rest)
  | '\x7d' => .ok (.token .closeBrace, rest)
  | '[' => .ok (.token .openBracket, rest)
  | ']' => .ok (.token .closeBracket, rest)
  | ':' => .ok (.token .colon, rest)
  | ',' => .ok (.token .comma, rest)
  | 'n' => lexWord .null ['u', 'l', 'l'] rest
  | 't' => lexWord (.bool true) ['r', 'u', 'e'] rest
  | 'f' => lexWord (.bool false) ['a', 'l', 's', 'e'] rest
  | '\x22' => lexString rest
  | '-' => lexNumber true rest
  | c =>
    if c.isDigit then lexNumber false (c :: rest)
    else .error (.broken .malformed .malformed)

/-- Whether a character may stand between two tokens. -/
def isBlank (c : Char) : Bool := c = ' ' || c = '\n' || c = '\t' || c = '\r'

theorem lexWord_length {t : Token} {w cs rest : List Char} {l : Lexeme}
    (h : lexWord t w cs = .ok (l, rest)) : rest.length ≤ cs.length := by
  fun_induction lexWord t w cs <;> grind

theorem lexOne_length {c : Char} {cs rest : List Char} {l : Lexeme}
    (h : lexOne c cs = .ok (l, rest)) : rest.length ≤ cs.length := by
  unfold lexOne at h
  split at h
  case h_7 | h_8 | h_9 => exact lexWord_length h
  case h_10 => exact lexString_length h
  case h_11 => exact Nat.le_of_lt (lexNumber_length h)
  case h_12 =>
    split at h
    · exact Nat.le_of_lt_succ (lexNumber_length h)
    · cases h
  all_goals cases h; exact Nat.le_refl _

def lex (text : String) : List Lexeme :=
  go #[] text.toList
where
  go (found : Array Lexeme) : List Char → List Lexeme
    | [] => found.toList
    | c :: rest =>
      if isBlank c then go found rest
      else
        match _h : lexOne c rest with
        | .ok (l, rest) => go (found.push l) rest
        | .error l => (found.push l).toList
  termination_by cs => cs.length
  decreasing_by
    · simp
    · exact Nat.lt_succ_of_le (lexOne_length _h)

end Whitespace.Json

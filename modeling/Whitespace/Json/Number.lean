import Whitespace.Json.Token

/-!
# JSON numbers

A number is read as an integer if it has neither fraction nor exponent and fits
into 64 bits, with or without a sign.  Any other number is a real one, which is
out of range if its first twenty digits and its exponent go beyond double
precision.
-/

namespace Whitespace.Json

/-- The nearest integer that has at most 53 significant bits, ties to even. -/
def roundTo53Bits (n : Nat) : Nat :=
  let unit := Nat.pow 2 (n.log2 + 1 - 53)
  let quotient := n / unit
  let twice := 2 * (n % unit)
  let up := twice > unit || (twice == unit && quotient % 2 == 1)
  (if up then quotient + 1 else quotient) * unit

/-- Whether `significand * 10 ^ exponent` is in the range of double precision. -/
def fitsDouble (significand : Nat) (exponent : Int) : Bool :=
  significand == 0 || exponent < 0 ||
    (exponent ≤ 308 &&
      roundTo53Bits significand * roundTo53Bits (Nat.pow 10 exponent.toNat) <
        Nat.pow 2 1024 - Nat.pow 2 970)

/-- Leading digits as a 64-bit significand, and the number of digits that do not
fit into it any more. -/
def significandOf (whole : List Char) : Nat × Nat :=
  go 0 whole
where
  go (significand : Nat) : List Char → Nat × Nat
    | [] => (significand, 0)
    | c :: rest =>
      let longer := 10 * significand + (c.toNat - '0'.toNat)
      if longer < UInt64.size then go longer rest else (significand, rest.length + 1)

/-- The value of a number of the given parts, as far as it is an integer. -/
def numberLexeme (negative : Bool) (whole : List Char) (fraction : List Char)
    (exponent : Option Int) : Lexeme :=
  let (significand, lost) := significandOf whole
  let n : Int := if negative then -Int.ofNat significand else significand
  if lost = 0 ∧ fraction = [] ∧ exponent = none ∧ Int64.minValue.toInt ≤ n ∧
      !(negative && n == 0) then
    .token (.integer n)
  else
    let (longer, ignored) := significandOf.go significand fraction
    let shift : Int := lost - (fraction.length - ignored : Nat)
    .real (fitsDouble longer (shift + exponent.getD 0))

/-- The problem that a digit is missing before the rest of a text. -/
def missingDigit (rest : List Char) : Lexeme :=
  .broken (if rest.isEmpty then .ended else .malformed) .malformed

def lexDigits (cs : List Char) : Except Lexeme (List Char × List Char) :=
  let digits := cs.takeWhile Char.isDigit
  let rest := cs.dropWhile Char.isDigit
  if digits.isEmpty then .error (missingDigit rest) else .ok (digits, rest)

def lexFraction : List Char → Except Lexeme (List Char × List Char)
  | '.' :: rest => lexDigits rest
  | rest => .ok ([], rest)

/-- Reads the digits of an exponent behind its sign. -/
def lexExponentDigits (negative : Bool) (cs : List Char) :
    Except Lexeme (Option Int × List Char) := do
  let (digits, rest) ← lexDigits cs
  let n : Int := Nat.ofDigitChars 10 digits 0
  return (some (if negative then -n else n), rest)

def lexExponent : List Char → Except Lexeme (Option Int × List Char)
  | c :: rest =>
    if c = 'e' ∨ c = 'E' then
      match rest with
      | '+' :: rest => lexExponentDigits false rest
      | '-' :: rest => lexExponentDigits true rest
      | rest => lexExponentDigits false rest
    else .ok (none, c :: rest)
  | [] => .ok (none, [])

/-- Reads a number behind its sign. -/
def lexNumber (negative : Bool) (cs : List Char) : Except Lexeme (Lexeme × List Char) := do
  let (whole, rest) ← lexDigits cs
  if whole.length > 1 ∧ whole.head? = some '0' then
    throw (.broken .malformed .malformed)
  let (fraction, rest) ← lexFraction rest
  let (exponent, rest) ← lexExponent rest
  return (numberLexeme negative whole fraction exponent, rest)

/-! ## What is left behind a number is shorter -/

theorem lexDigits_length {cs digits rest : List Char}
    (h : lexDigits cs = .ok (digits, rest)) : rest.length < cs.length := by
  unfold lexDigits at h
  dsimp only at h
  split at h
  · cases h
  · next hd =>
    obtain ⟨rfl, rfl⟩ : _ ∧ _ := by simpa using h
    have hsplit := congrArg List.length
      (@List.takeWhile_append_dropWhile _ Char.isDigit cs)
    rw [List.length_append] at hsplit
    have hpos : 0 < (cs.takeWhile Char.isDigit).length := by
      rw [List.length_pos_iff]
      simpa using hd
    omega

theorem lexFraction_length {cs digits rest : List Char}
    (h : lexFraction cs = .ok (digits, rest)) : rest.length ≤ cs.length := by
  unfold lexFraction at h
  split at h
  · have := lexDigits_length h
    simp only [List.length_cons]
    omega
  · obtain ⟨rfl, rfl⟩ : _ ∧ _ := by simpa using h
    exact Nat.le_refl _

theorem lexExponentDigits_length {negative : Bool} {cs rest : List Char} {e : Option Int}
    (h : lexExponentDigits negative cs = .ok (e, rest)) : rest.length ≤ cs.length := by
  unfold lexExponentDigits at h
  cases hd : lexDigits cs with
  | error l => simp [hd, bind, Except.bind] at h
  | ok r =>
    have := lexDigits_length hd
    simp only [hd, bind, Except.bind, pure, Except.pure, Except.ok.injEq, Prod.mk.injEq] at h
    rw [← h.2]
    omega

theorem lexExponent_length {cs rest : List Char} {e : Option Int}
    (h : lexExponent cs = .ok (e, rest)) : rest.length ≤ cs.length := by
  unfold lexExponent at h
  split at h
  · split at h
    · split at h <;>
        · have := lexExponentDigits_length h
          simp only [List.length_cons] at *
          omega
    · obtain ⟨rfl, rfl⟩ : _ ∧ _ := by simpa using h
      exact Nat.le_refl _
  · obtain ⟨rfl, rfl⟩ : _ ∧ _ := by simpa using h
    exact Nat.le_refl _

theorem lexNumber_length {negative : Bool} {cs rest : List Char} {l : Lexeme}
    (h : lexNumber negative cs = .ok (l, rest)) : rest.length < cs.length := by
  unfold lexNumber at h
  cases hd : lexDigits cs with
  | error l => simp [hd, bind, Except.bind] at h
  | ok whole =>
    have hwhole := lexDigits_length hd
    simp only [hd, bind, Except.bind] at h
    split at h
    · cases h
    · cases hf : lexFraction whole.2 with
      | error l => simp [hf] at h
      | ok fraction =>
        have hfraction := lexFraction_length hf
        simp only [hf, pure, Except.pure] at h
        cases he : lexExponent fraction.2 with
        | error l => simp [he] at h
        | ok exponent =>
          have hexponent := lexExponent_length he
          simp only [he, Except.ok.injEq, Prod.mk.injEq] at h
          rw [← h.2]
          omega

end Whitespace.Json

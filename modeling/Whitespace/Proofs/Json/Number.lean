import Whitespace.Json.Number
import Whitespace.Text.Decimal

/-!
# Written integers are read back

A written integer has no leading zero, and its digits fit into 64 bits if the
integer does, so no digit is lost on the way (`lexNumber_ofNat`).  The text
behind it must not go on with the number.
-/

namespace Whitespace.Json

/-- The text does not begin with a character that a number may go on with. -/
def NumberEnds (rest : List Char) : Prop :=
  ∀ c ∈ rest.head?, c.isDigit = false ∧ c ≠ '.' ∧ c ≠ 'e' ∧ c ≠ 'E'

/-! ## Digits -/

theorem lexDigits_append {digits rest : List Char} (hdigits : ∀ c ∈ digits, c.isDigit = true)
    (hne : digits ≠ []) (hrest : NumberEnds rest) :
    lexDigits (digits ++ rest) = .ok (digits, rest) := by
  have htake : rest.takeWhile Char.isDigit = [] := by
    cases rest with
    | nil => rfl
    | cons c rest => simp [(hrest c rfl).1]
  have hdrop : rest.dropWhile Char.isDigit = rest := by
    cases rest with
    | nil => rfl
    | cons c rest => simp [(hrest c rfl).1]
  unfold lexDigits
  rw [List.takeWhile_append_of_pos hdigits, List.dropWhile_append_of_pos hdigits, htake, hdrop]
  simp [hne]

theorem le_ofDigitChars (cs : List Char) (n : Nat) : n ≤ Nat.ofDigitChars 10 cs n := by
  induction cs generalizing n with
  | nil => simp
  | cons c cs ih =>
    rw [Nat.ofDigitChars_cons]
    have := ih (10 * n + (c.toNat - '0'.toNat))
    omega

/-- Digits whose number fits into 64 bits are all taken into the significand. -/
theorem go_significandOf {cs : List Char} {n : Nat} (h : Nat.ofDigitChars 10 cs n < UInt64.size) :
    significandOf.go n cs = (Nat.ofDigitChars 10 cs n, 0) := by
  induction cs generalizing n with
  | nil => rfl
  | cons c cs ih =>
    rw [Nat.ofDigitChars_cons] at h ⊢
    have hlonger := Nat.lt_of_le_of_lt (le_ofDigitChars cs _) h
    simp only [significandOf.go, if_pos hlonger]
    exact ih h

theorem significandOf_ofNat {n : Nat} (h : n < UInt64.size) :
    significandOf (Decimal.ofNat n) = (n, 0) := by
  have hvalue : Nat.ofDigitChars 10 (Decimal.ofNat n) 0 = n := Nat.ofDigitChars_ten_toDigits
  unfold significandOf
  rw [go_significandOf (by rwa [hvalue]), hvalue]

theorem head?_ofNat_eq_zero {n : Nat} (h : (Decimal.ofNat n).head? = some '0') : n = 0 := by
  unfold Decimal.ofNat at h
  induction n using Nat.strongRecOn with
  | _ n ih =>
    by_cases hn : n < 10
    · simpa [Nat.toDigits_of_lt_base hn] using h
    · rw [Nat.toDigits_of_base_le (by omega) (by omega), List.head?_append,
        List.head?_eq_some_head Nat.toDigits_ne_nil, Option.some_or,
        ← List.head?_eq_some_head] at h
      have := ih (n / 10) (by omega) h
      omega

theorem no_leading_zero (n : Nat) :
    ¬ ((Decimal.ofNat n).length > 1 ∧ (Decimal.ofNat n).head? = some '0') := by
  rintro ⟨hlength, hzero⟩
  obtain rfl := head?_ofNat_eq_zero hzero
  exact absurd hlength (by decide)

/-! ## Numbers -/

theorem lexFraction_of_numberEnds {rest : List Char} (h : NumberEnds rest) :
    lexFraction rest = .ok ([], rest) := by
  unfold lexFraction
  split
  · exact absurd rfl (h '.' rfl).2.1
  · rfl

theorem lexExponent_of_numberEnds {rest : List Char} (h : NumberEnds rest) :
    lexExponent rest = .ok (none, rest) := by
  cases rest with
  | nil => rfl
  | cons c rest =>
    obtain ⟨-, -, he, hE⟩ := h c rfl
    simp [lexExponent, he, hE]

/-- A sign stands only before a number that is not zero, and only where 64 bits
have room for it. -/
theorem lexNumber_ofNat {n : Nat} {negative : Bool} {rest : List Char} (hsize : n < UInt64.size)
    (hsign : negative = true → n ≠ 0 ∧ Int64.minValue.toInt ≤ -(n : Int))
    (hrest : NumberEnds rest) :
    lexNumber negative (Decimal.ofNat n ++ rest) =
      .ok (.token (.integer (if negative then -(n : Int) else n)), rest) := by
  have hdigits : lexDigits (Decimal.ofNat n ++ rest) = .ok (Decimal.ofNat n, rest) :=
    lexDigits_append (fun _ => Decimal.isDigit_of_mem_ofNat) Nat.toDigits_ne_nil hrest
  have hlexeme : numberLexeme negative (Decimal.ofNat n) [] none =
      .token (.integer (if negative then -(n : Int) else n)) := by
    unfold numberLexeme
    rw [significandOf_ofNat hsize]
    cases negative with
    | false => simp
    | true =>
      obtain ⟨hne, hlow⟩ := hsign rfl
      simp only [if_true, Int.ofNat_eq_natCast]
      rw [if_pos (by simpa [hne] using hlow)]
  unfold lexNumber
  simp only [hdigits, bind, Except.bind, if_neg (no_leading_zero n), pure, Except.pure,
    lexFraction_of_numberEnds hrest, lexExponent_of_numberEnds hrest, hlexeme]

end Whitespace.Json

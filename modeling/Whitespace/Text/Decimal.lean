/-!
# Decimal numbers

Decimal text of integers, and the reading of signed decimal text into the
64-bit range.
-/

namespace Whitespace.Decimal

/-- The decimal digits of a number, without leading zeros. -/
def ofNat (n : Nat) : List Char := Nat.toDigits 10 n

/-- The decimal digits of a number, after a minus if it is negative. -/
def ofInt (n : Int) : List Char :=
  if n < 0 then '-' :: ofNat n.natAbs else ofNat n.natAbs

/-- The number that a non-empty sequence of digits spells. -/
def toNat? (digits : List Char) : Option Nat :=
  if digits.isEmpty || !digits.all Char.isDigit then none
  else some (Nat.ofDigitChars 10 digits 0)

/-- The number that digits after at most one sign spell. -/
def toInt? : List Char → Option Int
  | '+' :: digits => (toNat? digits).map Int.ofNat
  | '-' :: digits => (toNat? digits).map fun n => -Int.ofNat n
  | digits => (toNat? digits).map Int.ofNat

/-- Whether a number is one of the 64-bit signed integers. -/
def InRange (n : Int) : Prop :=
  Int64.minValue.toInt ≤ n ∧ n ≤ Int64.maxValue.toInt

instance (n : Int) : Decidable (InRange n) := inferInstanceAs (Decidable (_ ∧ _))

/-- The 64-bit signed integer that digits after at most one sign spell. -/
def toInt64? (text : List Char) : Option Int64 :=
  match toInt? text with
  | some n => if InRange n then some (Int64.ofInt n) else none
  | none => none

theorem isDigit_of_mem_ofNat {n : Nat} {c : Char} (h : c ∈ ofNat n) : c.isDigit = true :=
  Nat.isDigit_of_mem_toDigits (by decide) (by decide) h

/-- Written digits read back as the number. -/
@[simp] theorem toNat?_ofNat (n : Nat) : toNat? (ofNat n) = some n := by
  have hne : ofNat n ≠ [] := Nat.toDigits_ne_nil
  have hall : ∀ c ∈ ofNat n, c.isDigit = true := fun _ => isDigit_of_mem_ofNat
  have hvalue : Nat.ofDigitChars 10 (ofNat n) 0 = n := Nat.ofDigitChars_ten_toDigits
  simpa [toNat?, hne, hvalue] using hall

theorem toInt?_ofNat (n : Nat) : toInt? (ofNat n) = some (n : Int) := by
  have hsign : ∀ c ∈ ofNat n, c ≠ '+' ∧ c ≠ '-' := by
    intro c hc
    have hdigit := isDigit_of_mem_ofNat hc
    constructor <;> rintro rfl <;> revert hdigit <;> decide
  unfold toInt?
  split
  · next h => exact absurd rfl (hsign '+' (by rw [h]; simp)).1
  · next h => exact absurd rfl (hsign '-' (by rw [h]; simp)).2
  · simp

/-- A written integer reads back. -/
@[simp] theorem toInt?_ofInt (n : Int) : toInt? (ofInt n) = some n := by
  unfold ofInt
  split
  · simp only [toInt?, toNat?_ofNat, Option.map_some, Int.ofNat_eq_natCast, Option.some.injEq]
    omega
  · rw [toInt?_ofNat]
    simp only [Option.some.injEq]
    omega

/-- A written 64-bit integer reads back. -/
@[simp] theorem toInt64?_ofInt (n : Int64) : toInt64? (ofInt n.toInt) = some n := by
  have hrange : InRange n.toInt := ⟨n.minValue_le_toInt, n.toInt_le⟩
  simp [toInt64?, hrange]

end Whitespace.Decimal

import Mathlib.Data.Int.ModEq
import Mathlib.Data.List.DropRight
import Whitespace.Source.Spelling

/-!
# Numerals

A numeral stands for the 64-bit integer that is congruent to the signed number
it spells (`value_eq_ofInt`), and every 64-bit integer has a numeral: a sign and
the binary digits of its absolute value (`value_ofInt64`).  So numerals have one
value iff their signed numbers are congruent (`value_eq_iff`), and digits in front
that are zeros or have 64 others behind them do not matter.
-/

namespace Whitespace

/-- Numbers that are congruent modulo 2^64 have one 64-bit integer. -/
theorem ofInt_eq_of_modEq {a b : Int} (h : a ≡ b [ZMOD 2 ^ 64]) :
    Int64.ofInt a = Int64.ofInt b := by
  have hmod : a % (Int64.size : Nat) = b % (Int64.size : Nat) := h
  rw [← Int64.toInt_inj, Int64.toInt_ofInt, Int64.toInt_ofInt, ← Int.emod_bmod, hmod,
    Int.emod_bmod]

namespace Numeral

/-- The number that the numeral spells with its sign. -/
def signed (n : Numeral) : Int :=
  match n.sign with
  | .zero => magnitude n.digits
  | .one => -magnitude n.digits

/-- The binary digits of a number, without leading zeros. -/
def binary (n : Nat) : List Bit :=
  (Nat.toDigits 2 n).map fun c => if c = '1' then .one else .zero

/-- The numeral that spells a 64-bit integer without leading zeros. -/
def ofInt64 (n : Int64) : Numeral :=
  ⟨if n.toInt < 0 then .one else .zero, binary n.toInt.natAbs⟩

theorem magnitude_concat (digits : List Bit) (b : Bit) :
    magnitude (digits ++ [b]) = 2 * magnitude digits + b.toNat := by
  simp [magnitude]

theorem magnitude_append (front digits : List Bit) :
    magnitude (front ++ digits) = 2 ^ digits.length * magnitude front + magnitude digits := by
  induction digits using List.reverseRecOn with
  | nil => simp [magnitude]
  | append_singleton digits b ih =>
    rw [← List.append_assoc, magnitude_concat, ih, magnitude_concat, List.length_append,
      List.length_singleton, Nat.pow_succ']
    rw [Nat.mul_add, Nat.mul_assoc, Nat.add_assoc]

theorem magnitude_zeros_append (k : Nat) (digits : List Bit) :
    magnitude (List.replicate k .zero ++ digits) = magnitude digits := by
  have hzeros : magnitude (List.replicate k .zero) = 0 := by
    induction k with
    | zero => rfl
    | succ k ih => rw [List.replicate_succ', magnitude_concat, ih]; rfl
  rw [magnitude_append, hzeros, Nat.mul_zero, Nat.zero_add]

/-- Digit by digit, the wrapping sum is congruent to the number without bound. -/
theorem foldl_eq_ofNat_magnitude (digits : List Bit) :
    digits.foldl (fun acc b => 2 * acc + Int64.ofNat b.toNat) 0 =
      Int64.ofNat (magnitude digits) := by
  induction digits using List.reverseRecOn with
  | nil => rfl
  | append_singleton digits b ih =>
    rw [magnitude_concat, List.foldl_append, ih, Int64.ofNat_add, Int64.ofNat_mul]
    rfl

/-- **The value of a numeral** is its signed number modulo 2^64. -/
theorem value_eq_ofInt (n : Numeral) : n.value = Int64.ofInt n.signed := by
  obtain ⟨sg, digits⟩ := n
  have hsum := foldl_eq_ofNat_magnitude digits
  cases sg with
  | zero => simpa only [value, signed, Int64.ofInt_eq_ofNat] using hsum
  | one =>
    simp only [value, signed, Int64.ofInt_neg, Int64.ofInt_eq_ofNat]
    rw [hsum]

/-- The value is congruent to the signed number. -/
theorem toInt_value_modEq (n : Numeral) : n.value.toInt ≡ n.signed [ZMOD 2 ^ 64] := by
  rw [value_eq_ofInt, Int64.toInt_ofInt]
  exact Int.bmod_emod

/-- Numerals have one value iff their signed numbers are congruent. -/
theorem value_eq_iff {m n : Numeral} :
    m.value = n.value ↔ m.signed ≡ n.signed [ZMOD 2 ^ 64] := by
  constructor
  · intro h
    exact m.toInt_value_modEq.symm.trans (h ▸ n.toInt_value_modEq)
  · intro h
    rw [value_eq_ofInt, value_eq_ofInt, ofInt_eq_of_modEq h]

/-- Numerals with one sign and with congruent magnitudes have one value. -/
theorem value_eq_of_magnitude {sign : Bit} {as bs : List Bit}
    (h : (magnitude as : Int) ≡ magnitude bs [ZMOD 2 ^ 64]) :
    (⟨sign, as⟩ : Numeral).value = (⟨sign, bs⟩ : Numeral).value := by
  rw [value_eq_iff]
  cases sign with
  | zero => exact h
  | one => exact h.neg

/-- Zeros in front do not matter. -/
theorem value_zeros_append (sign : Bit) (k : Nat) (digits : List Bit) :
    (⟨sign, List.replicate k .zero ++ digits⟩ : Numeral).value = (⟨sign, digits⟩ : Numeral).value :=
  value_eq_of_magnitude (by rw [magnitude_zeros_append])

/-- Digits in front of 64 others do not matter. -/
theorem value_append_of_le (sign : Bit) (front : List Bit) {digits : List Bit}
    (h : 64 ≤ digits.length) :
    (⟨sign, front ++ digits⟩ : Numeral).value = (⟨sign, digits⟩ : Numeral).value := by
  refine value_eq_of_magnitude ?_
  have hfront : 2 ^ digits.length * magnitude front ≡ 0 [MOD 2 ^ 64] :=
    Nat.modEq_zero_iff_dvd.2 (Nat.dvd_mul_right_of_dvd (Nat.pow_dvd_pow 2 h) _)
  have hsum := hfront.add_right (magnitude digits)
  rw [Nat.zero_add, ← magnitude_append] at hsum
  exact Int.natCast_modEq_iff.2 hsum

/-- The last 64 digits decide. -/
theorem value_rtake (sign : Bit) (digits : List Bit) :
    (⟨sign, digits.rtake 64⟩ : Numeral).value = (⟨sign, digits⟩ : Numeral).value := by
  by_cases h : digits.length ≤ 64
  · rw [List.rtake, Nat.sub_eq_zero_of_le h, List.drop_zero]
  · have hlen : 64 ≤ (digits.rtake 64).length := by
      rw [List.rtake, List.length_drop]
      omega
    conv => rhs; rw [← List.take_append_drop (digits.length - 64) digits]
    exact (value_append_of_le sign _ hlen).symm

theorem magnitude_binary (n : Nat) : magnitude (binary n) = n := by
  induction n using Nat.strongRecOn with
  | _ n ih =>
    by_cases hn : n < 2
    · have : n = 0 ∨ n = 1 := by omega
      rcases this with rfl | rfl <;> rfl
    · have hdigit : (if (n % 2).digitChar = '1' then Bit.one else .zero).toNat = n % 2 := by
        rcases Nat.mod_two_eq_zero_or_one n with h | h <;> rw [h] <;> rfl
      have hsplit : binary n =
          binary (n / 2) ++ [if (n % 2).digitChar = '1' then Bit.one else .zero] := by
        rw [binary, Nat.toDigits_of_base_le (by decide) (by omega), List.map_append]
        rfl
      rw [hsplit, magnitude_concat, ih (n / 2) (by omega), hdigit]
      omega

theorem signed_ofInt64 (n : Int64) : (ofInt64 n).signed = n.toInt := by
  unfold signed ofInt64
  by_cases h : n.toInt < 0
  · simp only [h, ↓reduceIte, magnitude_binary]
    omega
  · simp only [h, ↓reduceIte, magnitude_binary]
    omega

@[simp] theorem value_ofInt64 (n : Int64) : (ofInt64 n).value = n := by
  rw [value_eq_ofInt, signed_ofInt64, Int64.ofInt_toInt]

end Numeral

end Whitespace

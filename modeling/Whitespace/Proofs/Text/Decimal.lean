import Whitespace.Proofs.Text.Lossy
import Whitespace.Text.Decimal

/-!
# Signed decimal bytes

A signed decimal number is at most one sign and then at least one digit
(`Decimal.Signed`).  These bytes are all below `0x80`, and so are the characters that a
number is read from: a text in which a number is found has no replacement character, and
its bytes are no others than those of its characters.  So a number is found in the lossy
text of some bytes iff the bytes spell it (`Decimal.toInt64?_decodeLossy_eq_some_iff`).
-/

namespace Whitespace.Decimal

open Utf8

/-- Decimal digits, at least one, the most significant one first, and the number that they
spell. -/
inductive Digits : List UInt8 → Nat → Prop
  | single {d : Nat} (hd : d < 10) : Digits [UInt8.ofNat (d + 0x30)] d
  | concat {bytes : List UInt8} {n d : Nat} (h : Digits bytes n) (hd : d < 10) :
      Digits (bytes ++ [UInt8.ofNat (d + 0x30)]) (10 * n + d)

/-- Digits behind a plus, a minus or no sign at all, and the number that they spell. -/
inductive Signed : List UInt8 → Int → Prop
  | bare {bytes : List UInt8} {n : Nat} (h : Digits bytes n) : Signed bytes n
  | plus {bytes : List UInt8} {n : Nat} (h : Digits bytes n) : Signed (0x2B :: bytes) n
  | minus {bytes : List UInt8} {n : Nat} (h : Digits bytes n) : Signed (0x2D :: bytes) (-n)

variable {bytes : List UInt8} {cs : List Char} {c : Char} {n : Nat} {k : Int}

/-! ## Digits as characters -/

theorem toNat?_eq_some_iff :
    toNat? cs = some n ↔
      cs ≠ [] ∧ (∀ c ∈ cs, c.isDigit = true) ∧ Nat.ofDigitChars 10 cs 0 = n := by
  unfold toNat?
  split
  · next h =>
    rw [Bool.or_eq_true, List.isEmpty_iff, Bool.not_eq_true', List.all_eq_false] at h
    constructor
    · intro hnone
      cases hnone
    · rintro ⟨hne, hall, -⟩
      rcases h with hnil | ⟨c, hc, hdigit⟩
      · exact absurd hnil hne
      · exact absurd (hall c hc) hdigit
  · next h =>
    rw [Bool.or_eq_true, not_or, List.isEmpty_iff, Bool.not_eq_true', Bool.not_eq_false,
      List.all_eq_true] at h
    rw [Option.some.injEq]
    exact ⟨fun hn => ⟨h.1, h.2, hn⟩, fun hn => hn.2.2⟩

/-- One more digit. -/
theorem ofDigitChars_concat (cs : List Char) (c : Char) :
    Nat.ofDigitChars 10 (cs ++ [c]) 0 = 10 * Nat.ofDigitChars 10 cs 0 + (c.toNat - 0x30) :=
  Nat.ofDigitChars_append 0

theorem toNat_digit {d : Nat} (hd : d < 10) : (Char.ofNat (d + 0x30)).toNat = d + 0x30 := by
  refine toNat_ofNat_of_valid (.inl ?_)
  omega

theorem encodeChar_digit {d : Nat} (hd : d < 10) :
    encodeChar (Char.ofNat (d + 0x30)) = [UInt8.ofNat (d + 0x30)] := by
  rw [encodeChar_eq, toNat_digit hd, if_pos (by omega)]

theorem isDigit_iff_exists : c.isDigit = true ↔ ∃ d < 10, c = Char.ofNat (d + 0x30) := by
  have hrange : c.isDigit = true ↔ 0x30 ≤ c.toNat ∧ c.toNat ≤ 0x39 := Char.isDigit_iff_toNat
  rw [hrange]
  constructor
  · rintro ⟨hlow, hhigh⟩
    refine ⟨c.toNat - 0x30, by omega, ?_⟩
    rw [Nat.sub_add_cancel hlow, Char.ofNat_toNat]
  · rintro ⟨d, hd, rfl⟩
    rw [toNat_digit hd]
    omega

theorem Digits.exists_toNat? (h : Digits bytes n) :
    ∃ cs, toNat? cs = some n ∧ bytes = cs.flatMap encodeChar := by
  induction h with
  | @single d hd =>
    refine ⟨[Char.ofNat (d + 0x30)], toNat?_eq_some_iff.2 ⟨List.cons_ne_nil _ _, ?_, ?_⟩, ?_⟩
    · rintro c hc
      rw [List.mem_singleton.1 hc]
      exact isDigit_iff_exists.2 ⟨d, hd, rfl⟩
    · rw [← List.nil_append [_], ofDigitChars_concat, toNat_digit hd, Nat.add_sub_cancel]
      exact Nat.zero_add d
    · rw [List.flatMap_singleton, encodeChar_digit hd]
  | @concat bytes n d _ hd ih =>
    obtain ⟨cs, hcs, rfl⟩ := ih
    obtain ⟨-, hall, rfl⟩ := toNat?_eq_some_iff.1 hcs
    refine ⟨cs ++ [Char.ofNat (d + 0x30)], toNat?_eq_some_iff.2 ⟨by simp, ?_, ?_⟩, ?_⟩
    · intro c hc
      rcases List.mem_append.1 hc with hc | hc
      · exact hall c hc
      · rw [List.mem_singleton.1 hc]
        exact isDigit_iff_exists.2 ⟨d, hd, rfl⟩
    · rw [ofDigitChars_concat, toNat_digit hd, Nat.add_sub_cancel]
    · rw [List.flatMap_append, List.flatMap_singleton, encodeChar_digit hd]

/-- The induction is on the digits from the last one on. -/
theorem digits_of_toNat? (h : toNat? cs = some n) : Digits (cs.flatMap encodeChar) n := by
  obtain ⟨hne, hall, rfl⟩ := toNat?_eq_some_iff.1 h
  clear h
  induction cs using List.reverseRecOn with
  | nil => exact absurd rfl hne
  | append_singleton cs c ih =>
    obtain ⟨d, hd, rfl⟩ := isDigit_iff_exists.1 (hall c (by simp))
    rw [ofDigitChars_concat, toNat_digit hd, Nat.add_sub_cancel, List.flatMap_append,
      List.flatMap_singleton, encodeChar_digit hd]
    by_cases hcs : cs = []
    · subst hcs
      rw [List.flatMap_nil, List.nil_append, Nat.ofDigitChars_nil, Nat.mul_zero, Nat.zero_add]
      exact .single hd
    · exact .concat (ih hcs fun c hc => hall c (List.mem_append_left _ hc)) hd

/-! ## Signs -/

theorem toInt?_of_isDigit (hc : c.isDigit = true) (cs : List Char) :
    toInt? (c :: cs) = (toNat? (c :: cs)).map Int.ofNat := by
  unfold toInt?
  split
  · next h =>
    cases h
    cases hc
  · next h =>
    cases h
    cases hc
  · rfl

theorem Signed.exists_toInt? (h : Signed bytes k) :
    ∃ cs, toInt? cs = some k ∧ bytes = cs.flatMap encodeChar := by
  cases h with
  | bare h =>
    obtain ⟨cs, hcs, rfl⟩ := h.exists_toNat?
    obtain ⟨hne, hall, -⟩ := toNat?_eq_some_iff.1 hcs
    obtain ⟨c, cs, rfl⟩ := List.exists_cons_of_ne_nil hne
    refine ⟨c :: cs, ?_, rfl⟩
    rw [toInt?_of_isDigit (hall c (List.mem_cons_self ..)), hcs]
    rfl
  | plus h =>
    obtain ⟨cs, hcs, rfl⟩ := h.exists_toNat?
    refine ⟨'+' :: cs, ?_, rfl⟩
    rw [toInt?, hcs]
    rfl
  | minus h =>
    obtain ⟨cs, hcs, rfl⟩ := h.exists_toNat?
    refine ⟨'-' :: cs, ?_, rfl⟩
    rw [toInt?, hcs]
    rfl

theorem signed_of_toInt? (h : toInt? cs = some k) : Signed (cs.flatMap encodeChar) k := by
  unfold toInt? at h
  split at h
  · obtain ⟨n, hn, rfl⟩ := Option.map_eq_some_iff.1 h
    exact .plus (digits_of_toNat? hn)
  · obtain ⟨n, hn, rfl⟩ := Option.map_eq_some_iff.1 h
    exact .minus (digits_of_toNat? hn)
  · obtain ⟨n, hn, rfl⟩ := Option.map_eq_some_iff.1 h
    exact .bare (digits_of_toNat? hn)

/-- **Signed digits are the bytes of signed digit characters.** -/
theorem signed_iff : Signed bytes k ↔ ∃ cs, toInt? cs = some k ∧ bytes = cs.flatMap encodeChar := by
  constructor
  · exact Signed.exists_toInt?
  · rintro ⟨cs, hcs, rfl⟩
    exact signed_of_toInt? hcs

theorem toNat_lt_of_toNat? (h : toNat? cs = some n) (hc : c ∈ cs) : c.toNat < 0x80 := by
  have hdigit := (toNat?_eq_some_iff.1 h).2.1 c hc
  exact Nat.lt_of_le_of_lt (Char.isDigit_iff_toNat.1 hdigit).2 (by decide)

theorem toNat_lt_of_toInt? (h : toInt? cs = some k) (hc : c ∈ cs) : c.toNat < 0x80 := by
  unfold toInt? at h
  split at h
  · obtain ⟨n, hn, -⟩ := Option.map_eq_some_iff.1 h
    rcases List.mem_cons.1 hc with rfl | hc
    · decide
    · exact toNat_lt_of_toNat? hn hc
  · obtain ⟨n, hn, -⟩ := Option.map_eq_some_iff.1 h
    rcases List.mem_cons.1 hc with rfl | hc
    · decide
    · exact toNat_lt_of_toNat? hn hc
  · obtain ⟨n, hn, -⟩ := Option.map_eq_some_iff.1 h
    exact toNat_lt_of_toNat? hn hc

theorem toInt64?_eq_some_iff {n : Int64} : toInt64? cs = some n ↔ toInt? cs = some n.toInt := by
  unfold toInt64?
  cases toInt? cs with
  | none => simp
  | some k =>
    by_cases hk : InRange k
    · have hlow : -2 ^ 63 ≤ k := hk.1
      have hhigh : k < 2 ^ 63 := Int.lt_add_one_of_le hk.2
      simp only [if_pos hk, Option.some.injEq]
      rw [← Int64.toInt_inj, Int64.toInt_ofInt_of_le hlow hhigh]
    · simp only [if_neg hk, Option.some.injEq, reduceCtorEq, false_iff]
      rintro rfl
      exact hk ⟨n.minValue_le_toInt, n.toInt_le⟩

theorem toInt?_decodeLossy_eq_some_iff :
    toInt? (decodeLossy bytes).toList = some k ↔ Signed bytes k := by
  rw [signed_iff]
  constructor
  · intro h
    refine ⟨_, h, eq_encode_of_decodeLossy fun c hc => ?_⟩
    rintro rfl
    exact absurd (toNat_lt_of_toInt? h hc) (by decide)
  · rintro ⟨cs, hcs, rfl⟩
    have hencode : cs.flatMap encodeChar = encode (String.ofList cs) := by
      rw [encode, String.toList_ofList]
    rw [hencode, decodeLossy_encode, String.toList_ofList, hcs]

theorem Signed.toNat_lt_of_mem_decodeLossy (h : Signed bytes k)
    (hc : c ∈ (decodeLossy bytes).toList) : c.toNat < 0x80 :=
  toNat_lt_of_toInt? (toInt?_decodeLossy_eq_some_iff.2 h) hc

/-- **A number is found in the lossy text of some bytes iff they spell it.** -/
theorem toInt64?_decodeLossy_eq_some_iff {n : Int64} :
    toInt64? (decodeLossy bytes).toList = some n ↔ Signed bytes n.toInt :=
  toInt64?_eq_some_iff.trans toInt?_decodeLossy_eq_some_iff

end Whitespace.Decimal

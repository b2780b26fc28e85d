import Whitespace.Proofs.Machine.Lines

/-!
# Reading numbers

The decimal digits of a number, with its sign, have neither a line feed nor a carriage
return among them.  So a number that is written on a line of its own is that line, and it
is read back (`Input.readNum_of_printed`).
-/

namespace Whitespace

open Utf8

/-- The bytes of a number as it is printed. -/
def Decimal.printed (n : Int64) : List UInt8 := (Decimal.ofInt n.toInt).flatMap encodeChar

namespace Decimal

theorem signed_printed (n : Int64) : Signed (printed n) n.toInt :=
  signed_iff.2 ⟨ofInt n.toInt, toInt?_ofInt _, rfl⟩

theorem eq_minus_or_isDigit {n : Int} {c : Char} (h : c ∈ ofInt n) :
    c = '-' ∨ c.isDigit = true := by
  unfold ofInt at h
  split at h
  · rcases List.mem_cons.1 h with rfl | h
    · exact .inl rfl
    · exact .inr (isDigit_of_mem_ofNat h)
  · exact .inr (isDigit_of_mem_ofNat h)

/-- Signs and digits come behind the line controls. -/
theorem le_toNat_of_mem_printed {n : Int64} {b : UInt8} (h : b ∈ printed n) : 45 ≤ b.toNat := by
  obtain ⟨c, hc, hb⟩ := List.mem_flatMap.1 h
  have hrange : 45 ≤ c.toNat ∧ c.toNat ≤ 57 := by
    rcases eq_minus_or_isDigit hc with rfl | hdigit
    · decide
    · rw [Char.isDigit_iff_toNat] at hdigit
      exact ⟨Nat.le_trans (by decide) hdigit.1, hdigit.2⟩
  rw [encodeChar_eq, if_pos (by omega)] at hb
  rw [List.mem_singleton.1 hb, UInt8.toNat_ofNat_of_lt' (Nat.lt_of_le_of_lt hrange.2 (by decide))]
  exact hrange.1

end Decimal

namespace Input

theorem not_endsLine_of_mem_printed {n : Int64} {b : UInt8} (h : b ∈ Decimal.printed n) :
    ¬ EndsLine b := by
  have hle := Decimal.le_toNat_of_mem_printed h
  rintro (rfl | rfl)
  · exact absurd hle (by decide)
  · exact absurd hle (by decide)

/-- **A number that is printed on a line of its own is read back.** -/
theorem readNum_of_printed {i : Input} {n : Int64}
    (h : Decimal.printed n ++ [0x0A] <+: i.bytes) :
    i.readNum = (.ok n, i.advance (Decimal.printed n ++ [0x0A]).length) := by
  obtain ⟨rest, hrest⟩ := h
  have hline : FirstLine i.bytes (Decimal.printed n ++ [0x0A]) := by
    rw [← hrest, List.append_assoc]
    exact .fed fun hmem => not_endsLine_of_mem_printed hmem (.inr rfl)
  have htext : Stripped EndsLine (Decimal.printed n ++ [0x0A]) (Decimal.printed n) := by
    refine ⟨⟨[0x0A], rfl, fun b hb => .inr (List.mem_singleton.1 hb)⟩, ?_⟩
    exact fun b hb => not_endsLine_of_mem_printed (List.mem_of_getLast? hb)
  have hmem : 0x0A ∈ i.bytes := by
    rw [← hrest]
    simp
  exact readNum_of_signed (.inl hmem) hline htext (Decimal.signed_printed n)

end Input

end Whitespace

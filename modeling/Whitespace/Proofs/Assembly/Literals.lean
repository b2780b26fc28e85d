import Whitespace.Proofs.Assembly.Grammar
import Whitespace.Proofs.Source.Numeral

/-!
# Literals

A literal is decoded to the 64-bit integer that is congruent to the number it spells, be
that as long as it may.  What stands around it in the source does not matter, provided that
decoding comes so far: neither the commands before it, nor what follows it, nor the comments
in it (`literals_exact`).
-/

namespace Whitespace

open Source

/-- A command that is no mark is linked into the slot behind the commands that decoding has
passed before it. -/
theorem get?_slots_of_passed {source : List UInt8} {cs : List Spelling} {c : Spelling}
    {w : List Symbol} (hcs : Passed cs) (hc : c.command.isMark = false)
    (hsymbols : symbols source = cs.flatMap Spelling.symbols ++ (c.symbols ++ w)) {p : Program}
    (h : assemble source = .ok p) :
    p.get? (Script.ofSpellings cs).slots =
      some (c.command.mapTarget (Script.target (Decoding.ofSource source).commands)) := by
  obtain ⟨ds, hds, -, rfl⟩ := assemble_eq_ok_iff.1 h
  obtain ⟨later, hlater⟩ := Decoding.prefix_commands_of_passed hcs c hsymbols
  rw [hds.reflects.commands, List.append_assoc, List.singleton_append] at hlater
  rw [hds.reflects.commands, Program.get?_eq_getElem?, Program.toList_ofList, ← hlater]
  have hget : (Script.ofSpellings cs ++ c.command :: later)[(Script.ofSpellings cs).length]? =
      some c.command := by
    rw [List.getElem?_append_right (Nat.le_refl _), Nat.sub_self]
    rfl
  have hlinked := Script.getElem?_linked hget hc
  rwa [Script.slotAt_append_of_le (Nat.le_refl _),
    Script.slotAt_of_length_le (Nat.le_refl _)] at hlinked

/-- **Literals are exact.**  Behind commands that decoding passes a literal is decoded to its
value, and if the source is assembled, the program pushes it.  The value is congruent modulo
2^64 to the number that the literal spells.  So zeros in front do not matter, the last 64
digits decide, and literals have one value iff their numbers are congruent.  Every 64-bit
integer is the value of its sign and the binary digits of its absolute value. -/
theorem literals_exact :
    (∀ n : Numeral,
      (∀ source cs w, Passed cs →
        symbols source = cs.flatMap Spelling.symbols ++ ((Spelling.push n).symbols ++ w) →
        Script.ofSpellings cs ++ [.push n.value] <+: (Decoding.ofSource source).commands ∧
        ∀ p, assemble source = .ok p →
          p.get? (Script.ofSpellings cs).slots = some (.push n.value)) ∧
      n.value.toInt ≡ n.signed [ZMOD 2 ^ 64] ∧
      (∀ k, Numeral.value ⟨n.sign, List.replicate k .zero ++ n.digits⟩ = n.value) ∧
      Numeral.value ⟨n.sign, n.digits.rtake 64⟩ = n.value ∧
      ∀ m : Numeral, m.value = n.value ↔ m.signed ≡ n.signed [ZMOD 2 ^ 64]) ∧
    ∀ v : Int64,
      Numeral.value ⟨if v.toInt < 0 then .one else .zero, Numeral.binary v.toInt.natAbs⟩ = v := by
  refine ⟨fun n => ⟨?_, n.toInt_value_modEq, fun k => Numeral.value_zeros_append n.sign k n.digits,
    Numeral.value_rtake n.sign n.digits, fun m => Numeral.value_eq_iff⟩, Numeral.value_ofInt64⟩
  intro source cs w hcs hsymbols
  exact ⟨Decoding.prefix_commands_of_passed hcs (.push n) hsymbols,
    fun p hp => get?_slots_of_passed hcs rfl hsymbols hp⟩

namespace LongLiteral

/-- The digits of 2^63 behind two others. -/
def numeral : Numeral := ⟨.one, .one :: .zero :: .one :: List.replicate 63 .zero⟩

/-- There is a command before the literal, a comment in it, and behind it an exit and then
what is no command. -/
def source : List UInt8 :=
  ofSymbols ((Spelling.op .dup).symbols ++ Opcode.push.word) ++ 0x23 ::
    ofSymbols (numeral.symbols ++ ((Spelling.op .exit).symbols ++ [.lf, .lf, .tab]))

def program : Program := .ofList [.op .dup, .push Int64.minValue, .op .exit]

theorem assemble_source : assemble source = .ok program := by
  decide +kernel

/-- The first two of its digits are lost, so the literal stands for the least integer. -/
theorem pushed : assemble source = .ok program ∧ numeral.value = Int64.minValue ∧
    program.get? 1 = some (.push numeral.value) := by
  obtain ⟨hall, hbinary⟩ := literals_exact
  obtain ⟨hdecoded, -, -, htake, -⟩ := hall numeral
  have hpassed : Passed [.op .dup] := ⟨by decide, by decide⟩
  refine ⟨assemble_source, ?_, ?_⟩
  · rw [← htake]
    exact hbinary Int64.minValue
  · exact (hdecoded source [.op .dup] _ hpassed rfl).2 program assemble_source

end LongLiteral

end Whitespace

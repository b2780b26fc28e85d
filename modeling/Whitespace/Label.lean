import Whitespace.Symbol

/-!
# Labels

A label names a place in a program.  It is spelled with Space and Tab and is
known by the word of `S` and `T` that spells it.  Labels are compared as words,
so labels that differ only in leading Spaces are different.
-/

namespace Whitespace

/-- One spelled binary digit: Space is zero and Tab is one. -/
inductive Bit where
  | zero
  | one
  deriving DecidableEq, Repr, Inhabited

namespace Bit

/-- The symbol that spells the digit. -/
def symbol : Bit → Symbol
  | zero => .space
  | one => .tab

/-- The digit that a symbol spells; line feed spells none. -/
def ofSymbol? : Symbol → Option Bit
  | .space => some zero
  | .tab => some one
  | .lf => none

def toNat : Bit → Nat
  | zero => 0
  | one => 1

end Bit

/-- A name for a place in a program. -/
structure Label where
  text : String
  deriving DecidableEq, Repr, Inhabited

namespace Label

/-- Lengthens a label by one spelled symbol; line feed adds nothing. -/
def push (l : Label) (s : Symbol) : Label :=
  match Bit.ofSymbol? s with
  | some b => ⟨l.text.push b.symbol.letter⟩
  | none => l

/-- The label that a word of digits spells. -/
def ofBits (bits : List Bit) : Label :=
  ⟨String.ofList (bits.map fun b => b.symbol.letter)⟩

/-- The label in messages, where the empty one is made visible. -/
def shown (l : Label) : String :=
  if l.text.isEmpty then "<empty>" else l.text

instance : ToString Label := ⟨shown⟩

theorem ofBits_append (bits : List Bit) (b : Bit) :
    ofBits (bits ++ [b]) = (ofBits bits).push b.symbol := by
  cases b <;> simp [ofBits, push, Bit.symbol, Bit.ofSymbol?]

/-- Different words spell different labels. -/
theorem ofBits_injective {as bs : List Bit} (h : ofBits as = ofBits bs) : as = bs := by
  simp only [ofBits, mk.injEq, String.ofList_inj] at h
  refine (List.map_inj_right ?_).1 h
  intro a b hab
  cases a <;> cases b <;> simp_all [Bit.symbol, Symbol.letter]

end Label

end Whitespace

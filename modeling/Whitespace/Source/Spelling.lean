import Whitespace.Opcode

/-!
# Spelled commands

Every command starts with the word of its opcode.  A push goes on with a sign,
binary digits and a line feed; a mark or a branch goes on with the digits of its
label and a line feed.  A fragment is what has been read of a command, and one
more symbol extends it, completes it or is refused.
-/

namespace Whitespace

/-- A binary number as it is spelled, a sign followed by digits. -/
structure Numeral where
  /-- The sign; one stands for minus. -/
  sign : Bit
  /-- The digits, most significant first. -/
  digits : List Bit
  deriving DecidableEq, Repr

namespace Numeral

/-- The number that the digits spell without their sign. -/
def magnitude (digits : List Bit) : Nat :=
  digits.foldl (fun acc b => 2 * acc + b.toNat) 0

/-- The 64-bit value of the numeral; digits beyond the 64th are lost at the top. -/
def value (n : Numeral) : Int64 :=
  let size := n.digits.foldl (fun acc b => 2 * acc + Int64.ofNat b.toNat) (0 : Int64)
  match n.sign with
  | .zero => size
  | .one => -size

/-- The symbols that spell the numeral, with the line feed that ends it. -/
def symbols (n : Numeral) : List Symbol :=
  n.sign.symbol :: n.digits.map Bit.symbol ++ [.lf]

end Numeral

/-- A command together with the way it is spelled. -/
inductive Spelling where
  | push (n : Numeral)
  | label (use : LabelUse) (digits : List Bit)
  | op (o : Operation)
  deriving DecidableEq, Repr

namespace Spelling

def symbols : Spelling → List Symbol
  | push n => Opcode.push.word ++ n.symbols
  | label use digits => (Opcode.label use).word ++ digits.map Bit.symbol ++ [.lf]
  | op o => (Opcode.op o).word

def command : Spelling → Command
  | push n => .push n.value
  | label .mark digits => .mark (Label.ofBits digits)
  | label (.branch kind) digits => .branch kind (Label.ofBits digits)
  | op o => .op o

end Spelling

/-- What has been read of a command that is not complete. -/
inductive Fragment where
  /-- The beginning of an opcode's word. -/
  | word (read : List Symbol)
  /-- The word of a push. -/
  | sign
  /-- A push with its sign and digits, the latest digit first. -/
  | digits (sign : Bit) (read : List Bit)
  /-- A word that asks for a label, and the label's digits, the latest first. -/
  | label (use : LabelUse) (read : List Bit)
  deriving DecidableEq, Repr

/-- What one more symbol makes of a fragment. -/
inductive Progress where
  | pending (f : Fragment)
  | complete (s : Spelling)
  | refused
  deriving DecidableEq, Repr

namespace Fragment

/-- Nothing has been read of a command. -/
def empty : Fragment := word []

/-- The symbols that have been read. -/
def symbols : Fragment → List Symbol
  | word read => read
  | sign => Opcode.push.word
  | digits sg read => Opcode.push.word ++ sg.symbol :: read.reverse.map Bit.symbol
  | label use read => (Opcode.label use).word ++ read.reverse.map Bit.symbol

/-- Reads one more symbol.  It is refused if no command begins so. -/
def feed : Fragment → Symbol → Progress
  | word read, s =>
    match Opcode.ofWord? (read ++ [s]) with
    | some .push => .pending sign
    | some (.label use) => .pending (label use [])
    | some (.op o) => .complete (.op o)
    | none => if Opcode.begins (read ++ [s]) then .pending (word (read ++ [s])) else .refused
  | sign, s =>
    match Bit.ofSymbol? s with
    | some b => .pending (digits b [])
    | none => .refused
  | digits sg read, s =>
    match Bit.ofSymbol? s with
    | some b => .pending (digits sg (b :: read))
    | none => .complete (.push ⟨sg, read.reverse⟩)
  | label use read, s =>
    match Bit.ofSymbol? s with
    | some b => .pending (label use (b :: read))
    | none => .complete (.label use read.reverse)

/-- A symbol that extends a fragment is its last symbol. -/
theorem symbols_of_pending {f g : Fragment} {s : Symbol} (h : f.feed s = .pending g) :
    g.symbols = f.symbols ++ [s] := by
  cases f with
  | word read =>
    simp only [feed] at h
    split at h
    · next hw => cases h; simpa [symbols] using Opcode.ofWord?_eq_some_iff.1 hw
    · next hw => cases h; simpa [symbols] using Opcode.ofWord?_eq_some_iff.1 hw
    · cases h
    · split at h <;> cases h; rfl
  | sign => cases s <;> cases h <;> rfl
  | digits sg read => cases s <;> cases h <;> simp [symbols, Bit.symbol]
  | label use read => cases s <;> cases h <;> simp [symbols, Bit.symbol]

/-- A symbol that completes a command is its last symbol. -/
theorem symbols_of_complete {f : Fragment} {s : Symbol} {c : Spelling}
    (h : f.feed s = .complete c) : c.symbols = f.symbols ++ [s] := by
  cases f with
  | word read =>
    simp only [feed] at h
    split at h
    · cases h
    · cases h
    · next hw => cases h; simpa [symbols, Spelling.symbols] using Opcode.ofWord?_eq_some_iff.1 hw
    · split at h <;> cases h
  | sign => cases s <;> cases h
  | digits sg read => cases s <;> cases h; simp [symbols, Spelling.symbols, Numeral.symbols]
  | label use read => cases s <;> cases h; simp [symbols, Spelling.symbols]

end Fragment

end Whitespace

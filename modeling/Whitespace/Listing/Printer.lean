import Whitespace.Json.Token
import Whitespace.Machine.Stream
import Whitespace.Opcode
import Whitespace.Program

/-!
# Writing listings

A listing is a program as JSON.  An instruction without operand is written by
its name; any other is an object whose only field has the name of the
instruction and holds the operand.
-/

namespace Whitespace

open Json (Token)

def Json.single (name : String) (value : List Token) : List Token :=
  [.openBrace, .string name, .colon] ++ value ++ [.closeBrace]

def Target.tokens (t : Target) : List Token :=
  [.openBrace, .string "label", .colon, .string t.label.text, .comma,
    .string "index", .colon, .integer t.index, .closeBrace]

/-- The tokens of an instruction, given those of what a branch carries. -/
def Instruction.tokens {τ : Type} (target : τ → List Token) : Instruction τ → List Token
  | push n => Json.single Opcode.push.name [.integer n.toInt]
  | mark l => Json.single (Opcode.label .mark).name [.string l.text]
  | branch kind t => Json.single (Opcode.label (.branch kind)).name (target t)
  | op o => [.string (Opcode.op o).name]

def Instruction.compact (i : Instruction Target) : String :=
  Json.compact (i.tokens Target.tokens)

namespace Program

def tokens (p : Program) : List Token :=
  Json.single "instructions" <|
    .openBracket :: [Token.comma].intercalate (p.toList.map (Instruction.tokens Target.tokens))
      ++ [.closeBracket]

def listing (p : Program) : String := Json.pretty p.tokens

/-- Writes the listing of a program to an output. -/
def writeListing (p : Program) (o : Output) : Except StreamFault Unit × Output :=
  o.write (Utf8.encode p.listing)

end Program

end Whitespace

import Whitespace.Json.Reader
import Whitespace.Opcode
import Whitespace.Program

/-!
# Reading listings

Listings are read in every form that they may be written in.  A record may be an
object with its fields in any order and with others besides, or an array of the
values of its fields.  An instruction without operand may be an object that
holds a null.
-/

namespace Whitespace

open Json (Problem Reader)
open Json.Reader

namespace Label

def reader : Reader Label := return ⟨← string⟩

end Label

namespace Target

def indexReader : Reader Nat := return (← integer 0 (UInt64.size - 1 : Nat)).toNat

def field (met : Option Label × Option Nat) (key : String) :
    Reader (Option Label × Option Nat) := do
  if key = "label" then return (← once Label.reader met.1, met.2)
  else if key = "index" then return (met.1, ← once indexReader met.2)
  else ignore; return met

def reader : Reader Target := do
  match ← peek with
  | some (.token .openBrace) =>
    drop
    let (label, index) ← fields field (none, none)
    return ⟨← require label, ← require index⟩
  | some (.token .openBracket) =>
    drop
    let label ← element true Label.reader
    let index ← element false indexReader
    endElements
    return ⟨label, index⟩
  | _ => misplaced

end Target

namespace Instruction

/-- Reads the operand of an instruction, given how to read what a branch
carries. -/
def operandReader {τ : Type} (target : Reader τ) : Opcode → Reader (Instruction τ)
  | .push => return .push (Int64.ofInt (← integer Int64.minValue.toInt Int64.maxValue.toInt))
  | .label .mark => return .mark (← Label.reader)
  | .label (.branch kind) => return .branch kind (← target)
  | .op o => do null; return .op o

def reader {τ : Type} (target : Reader τ) : Reader (Instruction τ) := do
  match ← peek with
  | some (.token .openBrace) =>
    drop
    match Opcode.ofName? (← key) with
    | some opcode =>
      expect .colon
      let i ← operandReader target opcode
      expect .closeBrace
      return i
    | none => throw .mismatch
  | some (.token (.string name)) =>
    drop
    match Opcode.ofName? name with
    | some (.op o) => return .op o
    | _ => throw .mismatch
  | some .halfPair | some (.brokenString _ _) => misplaced
  | _ => refuse

end Instruction

namespace Program

def codeReader : Reader (Array (Instruction Target)) :=
  array (Instruction.reader Target.reader)

def field (met : Option (Array (Instruction Target))) (key : String) :
    Reader (Option (Array (Instruction Target))) := do
  if key = "instructions" then once codeReader met
  else ignore; return met

def reader : Reader Program := do
  match ← peek with
  | some (.token .openBrace) =>
    drop
    let code ← fields field none
    return ⟨← require code⟩
  | some (.token .openBracket) =>
    drop
    let code ← element true codeReader
    endElements
    return ⟨code⟩
  | _ => misplaced

/-- The program that a listing stands for. -/
def ofListing (text : String) : Except Problem Program := reader.run text

end Program

/-- The command that a JSON text stands for, where branches carry labels. -/
def Command.ofJson (text : String) : Except Problem Command :=
  (Instruction.reader Label.reader).run text

end Whitespace

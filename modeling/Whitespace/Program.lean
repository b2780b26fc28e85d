import Whitespace.Instruction

/-!
# Programs

A linked program: instructions whose branches carry resolved targets, numbered
from zero.
-/

namespace Whitespace

/-- A sequence of linked instructions. -/
structure Program where
  code : Array (Instruction Target)
  deriving DecidableEq, Repr, Inhabited

namespace Program

/-- The program with these instructions. -/
def ofList (code : List (Instruction Target)) : Program := ⟨code.toArray⟩

/-- The instructions in order. -/
def toList (p : Program) : List (Instruction Target) := p.code.toList

def size (p : Program) : Nat := p.code.size

def isEmpty (p : Program) : Bool := p.code.isEmpty

/-- The instruction at an index, if the program is that long. -/
def get? (p : Program) (i : Nat) : Option (Instruction Target) := p.code[i]?

@[simp] theorem toList_ofList (code : List (Instruction Target)) :
    (ofList code).toList = code := rfl

@[simp] theorem ofList_toList (p : Program) : ofList p.toList = p := rfl

theorem get?_eq_getElem? (p : Program) (i : Nat) : p.get? i = p.toList[i]? := by
  simp [get?, toList]

theorem size_eq_length (p : Program) : p.size = p.toList.length := rfl

end Program

end Whitespace

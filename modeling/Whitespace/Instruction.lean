import Whitespace.Label

/-!
# Instructions

An instruction is an operation without operand, a number to push, a mark, or a
branch.  What a branch carries is a parameter: a bare label in a `Command`, as
it is decoded from a source, and a `Target` in a linked program.
-/

namespace Whitespace

/-- A binary operation on the two topmost values of the data stack. -/
inductive Arithmetic where
  | add
  | sub
  | mul
  | div
  | mod
  deriving DecidableEq, Repr, Inhabited

/-- An instruction that has no operand. -/
inductive Operation where
  | dup
  | swap
  | discard
  | arith (op : Arithmetic)
  | store
  | retrieve
  | ret
  | exit
  | outChar
  | outNum
  | readChar
  | readNum
  deriving DecidableEq, Repr, Inhabited

/-- An instruction that may go on at another place. -/
inductive Branch where
  | call
  | jump
  | jumpIfZero
  | jumpIfNegative
  deriving DecidableEq, Repr, Inhabited

/-- An instruction whose branches carry a `τ`. -/
inductive Instruction (τ : Type) where
  | push (n : Int64)
  | mark (l : Label)
  | branch (kind : Branch) (target : τ)
  | op (o : Operation)
  deriving DecidableEq, Repr, Inhabited

/-- An instruction as it is decoded, with bare labels. -/
abbrev Command := Instruction Label

/-- A place in a linked program: a label with the index that it was marked at. -/
structure Target where
  label : Label
  /-- The index of the instruction that follows the mark. -/
  index : Nat
  deriving DecidableEq, Repr, Inhabited

namespace Arithmetic

/-- Applies the operation modulo 2^64, quotients truncated toward zero.  A
division or remainder by zero has no value. -/
def eval? : Arithmetic → Int64 → Int64 → Option Int64
  | add, l, r => some (l + r)
  | sub, l, r => some (l - r)
  | mul, l, r => some (l * r)
  | div, l, r => if r = 0 then none else some (l / r)
  | mod, l, r => if r = 0 then none else some (l % r)

def name : Arithmetic → String
  | add => "Add"
  | sub => "Sub"
  | mul => "Mul"
  | div => "Div"
  | mod => "Mod"

end Arithmetic

def Operation.name : Operation → String
  | dup => "Dup"
  | swap => "Swap"
  | discard => "Discard"
  | arith op => op.name
  | store => "Store"
  | retrieve => "Retrieve"
  | ret => "Return"
  | exit => "Exit"
  | outChar => "OutChar"
  | outNum => "OutNum"
  | readChar => "ReadChar"
  | readNum => "ReadNum"

def Branch.name : Branch → String
  | call => "Call"
  | jump => "Jump"
  | jumpIfZero => "JumpIfZero"
  | jumpIfNegative => "JumpIfNegative"

namespace Instruction

/-- Replaces what a branch carries. -/
def mapTarget {α β : Type} (f : α → β) : Instruction α → Instruction β
  | push n => push n
  | mark l => mark l
  | branch kind target => branch kind (f target)
  | op o => op o

/-- Replaces what a branch carries by a computation that may fail. -/
def mapTargetM {m : Type → Type} [Monad m] {α β : Type} (f : α → m β) :
    Instruction α → m (Instruction β)
  | push n => pure (push n)
  | mark l => pure (mark l)
  | branch kind target => do return branch kind (← f target)
  | op o => pure (op o)

/-- Marks name the place that follows them and take no place themselves. -/
def isMark {α : Type} : Instruction α → Bool
  | mark _ => true
  | _ => false

@[simp] theorem mapTarget_id {α : Type} (i : Instruction α) : i.mapTarget id = i := by
  cases i <;> rfl

@[simp] theorem mapTarget_mapTarget {α β γ : Type} (f : α → β) (g : β → γ)
    (i : Instruction α) : (i.mapTarget f).mapTarget g = i.mapTarget (g ∘ f) := by
  cases i <;> rfl

@[simp] theorem isMark_mapTarget {α β : Type} (f : α → β) (i : Instruction α) :
    (i.mapTarget f).isMark = i.isMark := by
  cases i <;> rfl

end Instruction

end Whitespace

import Std.Data.TreeMap
import Whitespace.Machine.Stream
import Whitespace.Program

/-!
# Machine

The machine has a data stack and a heap of 64-bit integers, a stack of return
addresses and a program counter.  A run adds an input and an output.

The heap gives every 64-bit address a value.  An address that was never stored to
reads as zero and is not an entry.
-/

namespace Whitespace

/-- The addresses that were stored to, with their latest values. -/
structure Heap where
  /-- The entries, in the order of their addresses. -/
  entries : Std.TreeMap Int64 Int64 := {}

namespace Heap

def empty : Heap := {}

/-- The value that was stored last to an address, if any. -/
def find? (h : Heap) (address : Int64) : Option Int64 := h.entries[address]?

def load (h : Heap) (address : Int64) : Int64 := (h.find? address).getD 0

def store (h : Heap) (address value : Int64) : Heap := ⟨h.entries.insert address value⟩

/-- The entries in the order of their addresses. -/
def toList (h : Heap) : List (Int64 × Int64) := h.entries.toList

@[simp] theorem find?_empty (address : Int64) : empty.find? address = none := by
  simp [empty, find?]

@[simp] theorem toList_empty : empty.toList = [] := by
  simp [empty, toList, ← List.isEmpty_iff, Std.TreeMap.isEmpty_toList]

theorem find?_store (h : Heap) (a b value : Int64) :
    (h.store a value).find? b = if a = b then some value else h.find? b := by
  simp [find?, store, Std.TreeMap.getElem?_insert]

theorem mem_toList_iff (h : Heap) (a v : Int64) :
    (a, v) ∈ h.toList ↔ h.find? a = some v := by
  simp [find?, toList, Std.TreeMap.mem_toList_iff_getElem?_eq_some]

end Heap

/-- What a machine holds besides its program. -/
structure Machine where
  /-- The data stack, the topmost value first. -/
  stack : List Int64 := []
  heap : Heap := {}
  /-- The saved return addresses, the latest first. -/
  calls : List Nat := []
  /-- The index of the next instruction. -/
  pc : Nat := 0

/-- The streams of a run. -/
structure Console where
  input : Input := {}
  output : Output := {}

/-- A machine in a run. -/
structure State extends Machine, Console

/-- What an instruction makes of a state. -/
inductive Step where
  | next (s : State)
  | exit (s : State)
  | fault (f : Fault) (s : State)

namespace State

/-- Takes the topmost value off the data stack. -/
def pop (s : State) (k : Int64 → State → Step) : Step :=
  match s.stack with
  | [] => .fault .stackUnderflow s
  | a :: stack => k a { s with stack }

def push (s : State) (a : Int64) : State :=
  { s with stack := a :: s.stack }

/-- Takes the latest return address and goes there. -/
def ret (s : State) : Step :=
  match s.calls with
  | [] => .fault .callStackUnderflow s
  | pc :: calls => .next { s with pc, calls }

def write : State → List UInt8 → Step
  | ⟨machine, ⟨input, output⟩⟩, bytes =>
    match output.write bytes with
    | (.ok (), output) => .next ⟨machine, ⟨input, output⟩⟩
    | (.error f, output) => .fault (.stream f) ⟨machine, ⟨input, output⟩⟩

def flush : State → (State → Step) → Step
  | ⟨machine, ⟨input, output⟩⟩, k =>
    match output.flush with
    | (.ok (), output) => k ⟨machine, ⟨input, output⟩⟩
    | (.error f, output) => .fault (.stream f) ⟨machine, ⟨input, output⟩⟩

/-- Takes a value from the input and puts its number on the data stack. -/
def read {α : Type} (s : State) (source : Input → Except Fault α × Input)
    (number : α → Int64) : Step :=
  match source s.input with
  | (.ok a, input) => .next ({ s with input }.push (number a))
  | (.error f, input) => .fault f { s with input }

end State

/-- The character that a value stands for; the replacement character if there is
no such scalar value. -/
def charOfValue (v : Int64) : Char :=
  let n := v.toInt
  if 0 ≤ n ∧ n.toNat.isValidChar then Char.ofNat n.toNat else '\uFFFD'

/-- The value of a character, its scalar value. -/
def valueOfChar (c : Char) : Int64 := Int64.ofNat c.toNat

def Operation.execute (s : State) : Operation → Step
  | .dup => s.pop fun a s => .next ((s.push a).push a)
  | .swap => s.pop fun a s => s.pop fun b s => .next ((s.push a).push b)
  | .discard => s.pop fun _ s => .next s
  | .arith op => s.pop fun r s => s.pop fun l s =>
    match op.eval? l r with
    | some v => .next (s.push v)
    | none => .fault .divisionByZero s
  | .store => s.pop fun value s => s.pop fun address s =>
    .next { s with heap := s.heap.store address value }
  | .retrieve => s.pop fun address s => .next (s.push (s.heap.load address))
  | .ret => s.ret
  | .exit => .exit s
  | .outChar => s.pop fun v s => s.write (Utf8.encodeChar (charOfValue v))
  | .outNum => s.pop fun v s =>
    s.write ((Decimal.ofInt v.toInt).flatMap Utf8.encodeChar)
  | .readChar => s.flush fun s => s.read Input.readChar valueOfChar
  | .readNum => s.flush fun s => s.read Input.readNum id

def Branch.execute (s : State) (index : Nat) : Branch → Step
  | .call => .next { s with calls := s.pc :: s.calls, pc := index }
  | .jump => .next { s with pc := index }
  | .jumpIfZero => s.pop fun a s => .next (if a = 0 then { s with pc := index } else s)
  | .jumpIfNegative => s.pop fun a s => .next (if a < 0 then { s with pc := index } else s)

/-- Executes an instruction.  The program counter is already past it. -/
def Instruction.execute (s : State) : Instruction Target → Step
  | .push n => .next (s.push n)
  | .mark _ => .next s
  | .branch kind target => kind.execute s target.index
  | .op o => o.execute s

end Whitespace

import Whitespace.Source.Spelling

/-!
# Decoding

A source is decoded one byte at a time.  Decoding ends with the source, with
the first exit, or with the first fault, and keeps every command that was
completely read.  It also keeps the labels that were marked so far, each with the
index of the instruction that follows its mark.

Positions in a source are byte offsets, comments included.
-/

namespace Whitespace

/-- Why a source is refused. -/
inductive AssemblyError where
  /-- No command goes on with the symbol at this offset. -/
  | unexpectedSymbol (symbol : Symbol) (position : Nat)
  /-- The source, as long as given here, ends inside a command. -/
  | unexpectedEnd (position : Nat)
  | duplicateLabel (label : Label)
  | labelNotFound (label : Label)
  deriving DecidableEq, Repr

def AssemblyError.message : AssemblyError → String
  | unexpectedSymbol symbol position => s!"unexpected symbol {symbol} at byte {position}"
  | unexpectedEnd position =>
    s!"source ended in the middle of an instruction (byte {position})"
  | duplicateLabel label => s!"label {label} is marked more than once"
  | labelNotFound label => s!"label not found: {label}"

/-! ## Label table -/

/-- Marked labels with their indices, the latest mark first. -/
structure Labels where
  marks : List (Label × Nat) := []
  deriving DecidableEq, Repr, Inhabited

namespace Labels

def find? (t : Labels) (l : Label) : Option Nat :=
  t.marks.lookup l

def contains (t : Labels) (l : Label) : Bool :=
  (t.find? l).isSome

def insert (t : Labels) (l : Label) (index : Nat) : Labels :=
  ⟨(l, index) :: t.marks⟩

def size (t : Labels) : Nat := t.marks.length

theorem find?_insert (t : Labels) (l m : Label) (index : Nat) :
    (t.insert l index).find? m = if m = l then some index else t.find? m := by
  by_cases h : m = l
  · simp [find?, insert, h]
  · simp [find?, insert, List.lookup_cons, beq_false_of_ne h, h]

@[simp] theorem size_insert (t : Labels) (l : Label) (index : Nat) :
    (t.insert l index).size = t.size + 1 := rfl

end Labels

/-! ## Decoding -/

/-- What has been decoded of a source. -/
structure Decoding where
  /-- The complete commands, each with the number of instructions before it. -/
  decoded : Array (Nat × Command) := #[]
  /-- The number of instructions, which are the commands that are no marks. -/
  size : Nat := 0
  labels : Labels := {}
  fault : Option AssemblyError := none
  deriving DecidableEq, Repr, Inhabited

namespace Decoding

/-- The complete commands, marks among them. -/
def commands (d : Decoding) : List Command := d.decoded.toList.map Prod.snd

/-- The commands that become instructions. -/
def code (d : Decoding) : List Command := d.commands.filter fun c => !c.isMark

/-- Takes a complete command in.  A mark names the place of the next command
that is no mark, and its label has to be new. -/
def accept (d : Decoding) (c : Command) : Decoding :=
  let decoded := d.decoded.push (d.size, c)
  match c with
  | .mark l =>
    if d.labels.contains l then { d with decoded, fault := some (.duplicateLabel l) }
    else { d with decoded, labels := d.labels.insert l d.size }
  | _ => { d with decoded, size := d.size + 1 }

/-- Goes on decoding at an offset, with a fragment of the current command. -/
def resume (d : Decoding) (f : Fragment) (offset : Nat) : List UInt8 → Decoding
  | [] => if f = .empty then d else { d with fault := some (.unexpectedEnd offset) }
  | b :: rest =>
    match Symbol.ofByte? b with
    | none => d.resume f (offset + 1) rest
    | some s =>
      match f.feed s with
      | .pending f => d.resume f (offset + 1) rest
      | .refused => { d with fault := some (.unexpectedSymbol s offset) }
      | .complete spelling =>
        let d := d.accept spelling.command
        if d.fault.isSome ∨ spelling = .op .exit then d
        else d.resume .empty (offset + 1) rest

def ofSource (source : List UInt8) : Decoding :=
  resume {} .empty 0 source

end Decoding

end Whitespace

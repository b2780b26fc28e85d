import Whitespace.Symbol

/-!
# Cursor

A cursor walks over the symbols of a source and remembers where it met the
latest one.  Comments are passed over in silence.
-/

namespace Whitespace

/-- A place in a source, between two of its symbols. -/
structure Cursor where
  rest : List UInt8
  offset : Nat
  /-- The offset of the latest symbol. -/
  position : Option Nat
  deriving Repr

namespace Cursor

/-- The cursor before the first byte of a source. -/
def ofSource (source : List UInt8) : Cursor := ⟨source, 0, none⟩

/-- The length of the whole source. -/
def sourceLength (c : Cursor) : Nat := c.offset + c.rest.length

/-- The next symbol and the cursor behind it.  At the end of the source there is
none, and the position stays where the last symbol was. -/
def next (c : Cursor) : Option Symbol × Cursor :=
  go c.rest c.offset
where
  /-- Looks for a symbol from an offset on. -/
  go : List UInt8 → Nat → Option Symbol × Cursor
    | [], offset => (none, ⟨[], offset, c.position⟩)
    | b :: rest, offset =>
      match Symbol.ofByte? b with
      | some s => (some s, ⟨rest, offset + 1, some offset⟩)
      | none => go rest (offset + 1)

/-- All symbols that are left with their offsets, and the cursor at the end. -/
def drain (c : Cursor) : List (Symbol × Nat) × Cursor :=
  go #[] c.position c.rest c.offset
where
  /-- Collects the symbols from an offset on. -/
  go (found : Array (Symbol × Nat)) (position : Option Nat) :
      List UInt8 → Nat → List (Symbol × Nat) × Cursor
    | [], offset => (found.toList, ⟨[], offset, position⟩)
    | b :: rest, offset =>
      match Symbol.ofByte? b with
      | some s => go (found.push (s, offset)) (some offset) rest (offset + 1)
      | none => go found position rest (offset + 1)

@[simp] theorem sourceLength_ofSource (source : List UInt8) :
    (ofSource source).sourceLength = source.length := by
  simp [ofSource, sourceLength]

/-- A step leaves the length of the source alone. -/
@[simp] theorem sourceLength_next (c : Cursor) : c.next.2.sourceLength = c.sourceLength := by
  have go : ∀ rest offset, (next.go c rest offset).2.sourceLength = offset + rest.length := by
    intro rest
    induction rest with
    | nil => intro offset; rfl
    | cons b rest ih =>
      intro offset
      simp only [next.go]
      split
      · simp only [sourceLength, List.length_cons]
        omega
      · rw [ih, List.length_cons]
        omega
  exact go c.rest c.offset

end Cursor

end Whitespace

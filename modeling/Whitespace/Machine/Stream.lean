import Whitespace.Machine.Fault
import Whitespace.Text.Decimal
import Whitespace.Text.Utf8

/-!
# Streams

The input and the output of a running program as values.  An input is the bytes
that are left of it and how it ends; an output is what was written and flushed,
and how much of either it stands.

Reading never looks further than it consumes.
-/

namespace Whitespace

/-- What lies behind the last byte of an input. -/
inductive InputEnd where
  /-- The end of the input. -/
  | closed
  /-- A failure at any attempt to look further. -/
  | broken
  deriving DecidableEq, Repr, Inhabited

/-- An input that is being read. -/
structure Input where
  /-- The bytes that can still be read. -/
  bytes : List UInt8 := []
  /-- What lies behind them. -/
  ending : InputEnd := .closed
  /-- The number of bytes that have been read. -/
  consumed : Nat := 0
  deriving DecidableEq, Repr, Inhabited

namespace Input

def ofBytes (bytes : List UInt8) : Input := { bytes }

/-- An input that fails once a number of bytes has been read.  One that is
shorter than that ends as usual. -/
def failingAfter (limit : Nat) (bytes : List UInt8) : Input :=
  if limit ≤ bytes.length then { bytes := bytes.take limit, ending := .broken }
  else { bytes }

def advance (i : Input) (n : Nat) : Input :=
  { i with bytes := i.bytes.drop n, consumed := i.consumed + (i.bytes.take n).length }

/-- The width of the character that a first byte announces. -/
def width? (b : UInt8) : Option Nat :=
  if b < 0x80 then some 1
  else if b < 0xC0 then none
  else if b < 0xE0 then some 2
  else if b < 0xF0 then some 3
  else if b < 0xF8 then some 4
  else none

/-- Reads one character.  The first byte is consumed before it is judged, and
then as many more as it announces. -/
def readChar (i : Input) : Except Fault Char × Input :=
  match i.bytes with
  | [] =>
    match i.ending with
    | .closed => (.error .inputExhausted, i)
    | .broken => (.error (.stream .readFailed), i)
  | b :: _ =>
    match width? b with
    | none => (.error (.stream .notUtf8), i.advance 1)
    | some width =>
      let read := i.bytes.take width
      let result : Except Fault Char :=
        if read.length < width then
          match i.ending with
          | .closed => .error (.stream .cutOff)
          | .broken => .error (.stream .readFailed)
        else
          match Utf8.decodeChar? read with
          | some c => .ok c
          | none => .error (.stream .notUtf8)
      (result, i.advance width)

/-- Whether the next character takes more bytes than are at hand. -/
def lacksChar (i : Input) : Bool :=
  match i.bytes with
  | [] => true
  | b :: _ => i.bytes.length < (width? b).getD 1

/-- The bytes through the first line feed, or all of them if there is none. -/
def line (bytes : List UInt8) : List UInt8 :=
  bytes.takeWhile (· != 0x0A) ++ (bytes.dropWhile (· != 0x0A)).take 1

/-- Whether the next line takes more bytes than are at hand. -/
def lacksLine (i : Input) : Bool := !i.bytes.contains 0x0A

/-- A line without the carriage returns and line feeds at its end. -/
def trimLine (line : List UInt8) : List UInt8 :=
  (line.reverse.dropWhile fun b => b = 0x0D || b = 0x0A).reverse

/-- Reads a line, which ends with a line feed or with the input, as a number. -/
def readNum (i : Input) : Except Fault Int64 × Input :=
  let line := line i.bytes
  let result : Except Fault Int64 :=
    if i.lacksLine && i.ending = .broken then .error (.stream .readFailed)
    else
      let text := Utf8.decodeLossy (trimLine line)
      match Decimal.toInt64? text.toList with
      | some n => .ok n
      | none => .error (.notANumber text)
  (result, i.advance line.length)

theorem line_prefix (bytes : List UInt8) : line bytes <+: bytes := by
  conv => rhs; rw [← @List.takeWhile_append_dropWhile _ (· != 0x0A) bytes]
  exact (List.prefix_append_right_inj _).2 (List.take_prefix 1 _)

end Input

/-- An output that is being written. -/
structure Output where
  written : Array UInt8 := #[]
  /-- For every flush, the number of bytes that were written before it. -/
  flushes : Array Nat := #[]
  /-- The number of bytes after which writing fails. -/
  writeLimit : Option Nat := none
  /-- The number of flushes after which flushing fails. -/
  flushLimit : Option Nat := none
  deriving DecidableEq, Repr, Inhabited

namespace Output

/-- Writes bytes.  Those beyond the limit are lost and make the write fail. -/
def write : Output → List UInt8 → Except StreamFault Unit × Output
  | ⟨written, flushes, none, flushLimit⟩, bytes =>
    (.ok (), ⟨written ++ bytes, flushes, none, flushLimit⟩)
  | ⟨written, flushes, some limit, flushLimit⟩, bytes =>
    let room := limit - written.size
    (if bytes.length ≤ room then .ok () else .error .writeFailed,
      ⟨written ++ bytes.take room, flushes, some limit, flushLimit⟩)

/-- Whether one more flush succeeds. -/
def canFlush (o : Output) : Bool :=
  match o.flushLimit with
  | none => true
  | some limit => o.flushes.size < limit

def flush (o : Output) : Except StreamFault Unit × Output :=
  if o.canFlush then (.ok (), { o with flushes := o.flushes.push o.written.size })
  else (.error .flushFailed, o)

@[simp] theorem written_write (o : Output) (bytes : List UInt8) :
    (o.write bytes).2.written.toList = o.written.toList ++
      match o.writeLimit with
      | none => bytes
      | some limit => bytes.take (limit - o.written.size) := by
  rcases o with ⟨written, flushes, _ | limit, flushLimit⟩ <;> simp [write]

@[simp] theorem flushes_write (o : Output) (bytes : List UInt8) :
    (o.write bytes).2.flushes = o.flushes := by
  rcases o with ⟨written, flushes, _ | limit, flushLimit⟩ <;> rfl

@[simp] theorem written_flush (o : Output) : o.flush.2.written = o.written := by
  unfold flush
  split <;> rfl

theorem flushes_flush (o : Output) :
    o.flush.2.flushes = if o.canFlush then o.flushes.push o.written.size else o.flushes := by
  unfold flush
  split <;> simp [*]

end Output

end Whitespace

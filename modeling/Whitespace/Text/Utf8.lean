/-!
# UTF-8

Decoding of UTF-8 one byte at a time.  Between two bytes of a character the
decoder knows how many bytes are still needed and in which range the next one
must lie, so overlong forms, surrogates and values beyond the last code point
are refused at the first byte that rules them out.

A byte sequence falls apart into pieces: characters, maximal ill-formed parts,
and at most one beginning of a character that the end of the sequence cuts off.
-/

namespace Whitespace.Utf8

def encodeChar (c : Char) : List UInt8 := String.utf8EncodeChar c

def encode (text : String) : List UInt8 := text.toList.flatMap encodeChar

/-- A beginning of a character that is well formed so far. -/
structure Opening where
  /-- The number of bytes that are needed after the next one. -/
  more : Nat
  /-- The least value that the next byte may have. -/
  low : UInt8
  /-- The greatest value that the next byte may have. -/
  high : UInt8
  /-- The bits of the character that have been read. -/
  bits : Nat
  /-- The number of bytes that have been read. -/
  read : Nat
  deriving DecidableEq, Repr

/-- A part of a byte sequence. -/
inductive Piece where
  | char (c : Char)
  /-- A maximal part, of the given length, that begins no character. -/
  | illFormed (length : Nat)
  /-- A beginning of a character, of the given length, that the end cuts off. -/
  | cutOff (length : Nat)
  deriving DecidableEq, Repr

namespace Piece

/-- The number of bytes of the piece. -/
def length : Piece → Nat
  | char c => (encodeChar c).length
  | illFormed n => n
  | cutOff n => n

/-- The character of the piece; the replacement character for any other piece. -/
def toChar : Piece → Char
  | char c => c
  | _ => '\uFFFD'

end Piece

/-- What a byte between two characters is. -/
inductive Lead where
  /-- A character of one byte. -/
  | char (c : Char)
  /-- The first byte of a longer character. -/
  | opens (o : Opening)
  /-- No beginning of a character. -/
  | illFormed
  deriving DecidableEq, Repr

/-- Classifies a byte between two characters. -/
def lead (b : UInt8) : Lead :=
  if b < 0x80 then .char (Char.ofNat b.toNat)
  else if b < 0xC2 then .illFormed
  else if b < 0xE0 then .opens ⟨0, 0x80, 0xBF, b.toNat % 32, 1⟩
  else if b = 0xE0 then .opens ⟨1, 0xA0, 0xBF, 0, 1⟩
  else if b = 0xED then .opens ⟨1, 0x80, 0x9F, 13, 1⟩
  else if b < 0xF0 then .opens ⟨1, 0x80, 0xBF, b.toNat % 16, 1⟩
  else if b = 0xF0 then .opens ⟨2, 0x90, 0xBF, 0, 1⟩
  else if b < 0xF4 then .opens ⟨2, 0x80, 0xBF, b.toNat % 8, 1⟩
  else if b = 0xF4 then .opens ⟨2, 0x80, 0x8F, 4, 1⟩
  else .illFormed

/-- How far a byte sequence has been cut into pieces. -/
structure Scan where
  /-- The complete pieces. -/
  found : Array Piece := #[]
  /-- The beginning of the current character. -/
  opening : Option Opening := none

namespace Scan

/-- Takes in a byte between two characters. -/
def start (found : Array Piece) (b : UInt8) : Scan :=
  match lead b with
  | .char c => ⟨found.push (.char c), none⟩
  | .opens o => ⟨found, some o⟩
  | .illFormed => ⟨found.push (.illFormed 1), none⟩

/-- Takes in one more byte.  A byte that does not go on with the current
character makes what has been read of it ill formed, and may begin another. -/
def step (s : Scan) (b : UInt8) : Scan :=
  match s.opening with
  | none => start s.found b
  | some o =>
    if o.low ≤ b ∧ b ≤ o.high then
      let bits := o.bits * 64 + b.toNat % 64
      match o.more with
      | 0 => ⟨s.found.push (.char (Char.ofNat bits)), none⟩
      | more + 1 => ⟨s.found, some ⟨more, 0x80, 0xBF, bits, o.read + 1⟩⟩
    else start (s.found.push (.illFormed o.read)) b

/-- The pieces once the sequence has ended. -/
def finish (s : Scan) : Array Piece :=
  match s.opening with
  | none => s.found
  | some o => s.found.push (.cutOff o.read)

end Scan

/-- The pieces that a byte sequence falls apart into. -/
def pieces (bytes : List UInt8) : List Piece :=
  (bytes.foldl Scan.step {}).finish.toList

/-- The text of a byte sequence, with a replacement character for every part
that is not well formed. -/
def decodeLossy (bytes : List UInt8) : String :=
  String.ofList ((pieces bytes).map Piece.toChar)

/-- The character that the whole byte sequence spells. -/
def decodeChar? (bytes : List UInt8) : Option Char :=
  match pieces bytes with
  | [.char c] => some c
  | _ => none

/-- Where a byte sequence stops being well formed. -/
structure Malformed where
  /-- The offset of the first piece that is no character. -/
  index : Nat
  /-- The length of that piece, unless the end of the sequence cuts it off. -/
  length : Option Nat
  deriving DecidableEq, Repr

def Malformed.message : Malformed → String
  | ⟨index, some length⟩ => s!"invalid utf-8 sequence of {length} bytes from index {index}"
  | ⟨index, none⟩ => s!"incomplete utf-8 byte sequence from index {index}"

/-- The text that a byte sequence spells, or where it stops being well formed. -/
def decode (bytes : List UInt8) : Except Malformed String :=
  go #[] 0 (pieces bytes)
where
  /-- Collects characters, at an offset in the sequence. -/
  go (text : Array Char) (index : Nat) : List Piece → Except Malformed String
    | [] => .ok (String.ofList text.toList)
    | .char c :: rest => go (text.push c) (index + (Piece.char c).length) rest
    | .illFormed n :: _ => .error ⟨index, some n⟩
    | .cutOff _ :: _ => .error ⟨index, none⟩

end Whitespace.Utf8

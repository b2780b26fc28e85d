/-!
# Symbols

A source is a sequence of bytes, of which three carry meaning: Space, Tab and
line feed.  Every other byte is a comment.  In the letter notation the three
symbols are written `S`, `T` and `L`, and every other character is a comment.
-/

namespace Whitespace

/-- One of the three characters that carry meaning. -/
inductive Symbol where
  | space
  | tab
  | lf
  deriving DecidableEq, Repr, Inhabited

namespace Symbol

/-- The byte that stands for the symbol in a source. -/
def toByte : Symbol → UInt8
  | space => 0x20
  | tab => 0x09
  | lf => 0x0A

/-- The symbol that a byte stands for; no symbol for a byte of a comment. -/
def ofByte? (b : UInt8) : Option Symbol :=
  if b = 0x20 then some space
  else if b = 0x09 then some tab
  else if b = 0x0A then some lf
  else none

/-- The letter that stands for the symbol in the letter notation. -/
def letter : Symbol → Char
  | space => 'S'
  | tab => 'T'
  | lf => 'L'

/-- The symbol that a letter stands for; no symbol for any other character. -/
def ofLetter? (c : Char) : Option Symbol :=
  if c = 'S' then some space
  else if c = 'T' then some tab
  else if c = 'L' then some lf
  else none

def name : Symbol → String
  | space => "[Space]"
  | tab => "[Tab]"
  | lf => "[LF]"

instance : ToString Symbol := ⟨name⟩

@[simp] theorem ofByte?_toByte (s : Symbol) : ofByte? s.toByte = some s := by
  cases s <;> rfl

theorem toByte_of_ofByte? {b : UInt8} {s : Symbol} (h : ofByte? b = some s) :
    s.toByte = b := by
  unfold ofByte? at h
  split at h
  · next hb => cases h; exact hb.symm
  split at h
  · next hb => cases h; exact hb.symm
  split at h
  · next hb => cases h; exact hb.symm
  · cases h

@[simp] theorem ofLetter?_letter (s : Symbol) : ofLetter? s.letter = some s := by
  cases s <;> rfl

end Symbol

/-! ## Letter notation -/

namespace Mnemonic

/-- The symbols that a text in letter notation stands for. -/
def symbols (text : String) : List Symbol :=
  text.toList.filterMap Symbol.ofLetter?

/-- The source that a text in letter notation stands for. -/
def translate (text : String) : List UInt8 :=
  (symbols text).map Symbol.toByte

end Mnemonic

end Whitespace

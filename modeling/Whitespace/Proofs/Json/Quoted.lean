import Whitespace.Json.Quoted

/-!
# Written strings are read back

Each character is written as one part of a string: as itself, as an escape of one
letter, or, for a control without such an escape, as the UTF-16 unit of its
number.  No such unit is half of a surrogate pair, so the parts of a written text
join to the text (`joinParts_map_ofChar`), whatever its characters are.
-/

namespace Whitespace.Json

/-! ## Escapes -/

theorem hexDigit?_digitChar {n : Nat} (h : n < 16) : hexDigit? n.digitChar = some n := by
  have key : ∀ n < 16, hexDigit? n.digitChar = some n := by decide
  exact key n h

/-- The two last digits give back a number below 32. -/
theorem hexUnit?_control {n : Nat} (h : n < 32) :
    hexUnit? '0' '0' (n / 16).digitChar (n % 16).digitChar = some n := by
  have hzero : hexDigit? '0' = some 0 := by decide
  have hhigh : hexDigit? (n / 16).digitChar = some (n / 16) := hexDigit?_digitChar (by omega)
  have hlow : hexDigit? (n % 16).digitChar = some (n % 16) := hexDigit?_digitChar (by omega)
  have hn : n / 16 * 16 + n % 16 = n := by omega
  simp [hexUnit?, hzero, hhigh, hlow, hn]

/-- The part of a string that a character is written as. -/
def StringPart.ofChar (c : Char) : StringPart :=
  if c.toNat < 0x20 ∧ c ∉ ['\x08', '\x0c', '\n', '\r', '\t'] then .unit c.toNat else .char c

theorem lexParts_char {c : Char} (hquote : c ≠ '\x22') (hbackslash : c ≠ '\\')
    (hcontrol : ¬ c.toNat < 0x20) (parts : Array StringPart) (rest : List Char) :
    lexParts parts (c :: rest) = lexParts (parts.push (.char c)) rest := by
  rw [lexParts.eq_def]
  split
  case h_5 h =>
    obtain ⟨rfl, rfl⟩ : _ ∧ _ := by simpa using h
    rw [if_neg hquote, if_neg hbackslash, if_neg hcontrol]
  all_goals simp_all

/-- **A written character** is one part of a string. -/
theorem lexParts_escapeChar (c : Char) (parts : Array StringPart) (rest : List Char) :
    lexParts parts (escapeChar c ++ rest) = lexParts (parts.push (.ofChar c)) rest := by
  unfold escapeChar
  split
  · next h => subst h; rfl
  split
  · next h => subst h; rfl
  split
  · next h => subst h; rfl
  split
  · next h => subst h; rfl
  split
  · next h => subst h; rfl
  split
  · next h => subst h; rfl
  split
  · next h => subst h; rfl
  split
  · next hcontrol =>
    have hpart : StringPart.ofChar c = .unit c.toNat := by simp_all [StringPart.ofChar]
    simp only [List.cons_append, List.nil_append, lexParts, hexUnit?_control hcontrol, hpart]
  · next hquote hbackslash _ _ _ _ _ hcontrol =>
    have hpart : StringPart.ofChar c = .char c := by simp [StringPart.ofChar, hcontrol]
    rw [hpart, List.cons_append, List.nil_append, lexParts_char hquote hbackslash hcontrol]

theorem lexParts_escaped (text : List Char) (parts : Array StringPart) (rest : List Char) :
    lexParts parts (text.flatMap escapeChar ++ '\x22' :: rest) =
      (parts.toList ++ text.map .ofChar, .ok rest) := by
  induction text generalizing parts with
  | nil => simp [lexParts]
  | cons c text ih =>
    rw [List.flatMap_cons, List.append_assoc, lexParts_escapeChar, ih]
    simp

/-! ## Joining -/

theorem joinParts_ofChar (c : Char) (text : Array Char) (parts : List StringPart) :
    joinParts text none none (.ofChar c :: parts) = joinParts (text.push c) none none parts := by
  unfold StringPart.ofChar
  split
  · next h =>
    have hlow : ¬ 0xDC00 ≤ c.toNat := by omega
    have hhigh : ¬ 0xD800 ≤ c.toNat := by omega
    simp [joinParts, hlow, hhigh, Char.ofNat_toNat]
  · rfl

theorem joinParts_map_ofChar (cs : List Char) (text : Array Char) :
    joinParts text none none (cs.map .ofChar) = .ok (String.ofList (text.toList ++ cs)) := by
  induction cs generalizing text with
  | nil => simp [joinParts]
  | cons c cs ih =>
    rw [List.map_cons, joinParts_ofChar, ih]
    simp

/-- **A written string** is read back, and nothing behind it is. -/
theorem lexString_escaped (text : String) (rest : List Char) :
    lexString (text.toList.flatMap escapeChar ++ '\x22' :: rest) =
      .ok (.token (.string text), rest) := by
  simp [lexString, lexParts_escaped, joinParts_map_ofChar]

end Whitespace.Json

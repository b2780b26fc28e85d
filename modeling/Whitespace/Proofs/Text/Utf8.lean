import Whitespace.Text.Utf8

/-!
# Encoded text is decoded again

The first byte of an encoded character opens as many bytes as follow it, and each
of them lies in the range that is asked for: a character of three bytes is at
least `0x800` and no surrogate, one of four bytes is at least `0x10000` and at most
the last code point.  So the pieces of an encoded text are its characters
(`Utf8.pieces_encode`).
-/

namespace Whitespace.Utf8

theorem toNat_lt (c : Char) : c.toNat < 0x110000 := by
  rcases c.valid with hlow | ⟨-, hhigh⟩
  · exact Nat.lt_trans hlow (by decide)
  · exact hhigh

/-! ## First bytes -/

theorem lead_ofNat_one {n : Nat} (h : n < 0x80) : lead (UInt8.ofNat n) = .char (Char.ofNat n) := by
  have key : ∀ n < 0x80, lead (UInt8.ofNat n) = .char (Char.ofNat n) := by decide
  exact key n h

theorem lead_ofNat_two {k : Nat} (hlow : 2 ≤ k) (hhigh : k < 32) :
    lead (UInt8.ofNat (k + 192)) = .opens ⟨0, 0x80, 0xBF, k, 1⟩ := by
  have key : ∀ k < 32, 2 ≤ k → lead (UInt8.ofNat (k + 192)) = .opens ⟨0, 0x80, 0xBF, k, 1⟩ := by
    decide
  exact key k hhigh hlow

theorem lead_ofNat_three {k : Nat} (h : k < 16) :
    lead (UInt8.ofNat (k + 224)) =
      .opens ⟨1, if k = 0 then 0xA0 else 0x80, if k = 13 then 0x9F else 0xBF, k, 1⟩ := by
  have key : ∀ k < 16, lead (UInt8.ofNat (k + 224)) =
      .opens ⟨1, if k = 0 then 0xA0 else 0x80, if k = 13 then 0x9F else 0xBF, k, 1⟩ := by
    decide
  exact key k h

theorem lead_ofNat_four {k : Nat} (h : k < 5) :
    lead (UInt8.ofNat (k + 240)) =
      .opens ⟨2, if k = 0 then 0x90 else 0x80, if k = 4 then 0x8F else 0xBF, k, 1⟩ := by
  have key : ∀ k < 5, lead (UInt8.ofNat (k + 240)) =
      .opens ⟨2, if k = 0 then 0x90 else 0x80, if k = 4 then 0x8F else 0xBF, k, 1⟩ := by
    decide
  exact key k h

/-! ## Further bytes -/

namespace Scan

variable {found : Array Piece} {k more bits read : Nat} {low high : UInt8}

theorem toNat_ofNat_add (hk : k < 64) : (UInt8.ofNat (k + 128)).toNat = k + 128 := by
  rw [UInt8.toNat_ofNat']
  omega

theorem ofNat_mem_range (hk : k < 64) (hlow : low.toNat ≤ k + 128) (hhigh : k + 128 ≤ high.toNat) :
    low ≤ UInt8.ofNat (k + 128) ∧ UInt8.ofNat (k + 128) ≤ high := by
  rw [UInt8.le_iff_toNat_le, UInt8.le_iff_toNat_le, toNat_ofNat_add hk]
  exact ⟨hlow, hhigh⟩

theorem bits_ofNat (hk : k < 64) : (UInt8.ofNat (k + 128)).toNat % 64 = k := by
  rw [toNat_ofNat_add hk]
  omega

/-- A byte in the range that is asked for goes on with the character. -/
theorem step_more (hk : k < 64) (hlow : low.toNat ≤ k + 128) (hhigh : k + 128 ≤ high.toNat) :
    step ⟨found, some ⟨more + 1, low, high, bits, read⟩⟩ (UInt8.ofNat (k + 128)) =
      ⟨found, some ⟨more, 0x80, 0xBF, bits * 64 + k, read + 1⟩⟩ := by
  have hrange := ofNat_mem_range hk hlow hhigh
  simp only [step, if_pos hrange, bits_ofNat hk]

/-- The last byte of a character completes it. -/
theorem step_last (hk : k < 64) (hlow : low.toNat ≤ k + 128) (hhigh : k + 128 ≤ high.toNat) :
    step ⟨found, some ⟨0, low, high, bits, read⟩⟩ (UInt8.ofNat (k + 128)) =
      ⟨found.push (.char (Char.ofNat (bits * 64 + k))), none⟩ := by
  have hrange := ofNat_mem_range hk hlow hhigh
  simp only [step, if_pos hrange, bits_ofNat hk]

theorem step_none {b : UInt8} : step ⟨found, none⟩ b = start found b := rfl

theorem start_opens {b : UInt8} {o : Opening} (h : lead b = .opens o) :
    start found b = ⟨found, some o⟩ := by
  rw [start, h]

end Scan

/-! ## Characters and texts -/

theorem encodeChar_eq (c : Char) :
    encodeChar c =
      if c.toNat ≤ 127 then [UInt8.ofNat c.toNat]
      else if c.toNat ≤ 2047 then
        [UInt8.ofNat (c.toNat / 64 % 32 + 192), UInt8.ofNat (c.toNat % 64 + 128)]
      else if c.toNat ≤ 65535 then
        [UInt8.ofNat (c.toNat / 4096 % 16 + 224), UInt8.ofNat (c.toNat / 64 % 64 + 128),
          UInt8.ofNat (c.toNat % 64 + 128)]
      else
        [UInt8.ofNat (c.toNat / 262144 % 8 + 240), UInt8.ofNat (c.toNat / 4096 % 64 + 128),
          UInt8.ofNat (c.toNat / 64 % 64 + 128), UInt8.ofNat (c.toNat % 64 + 128)] := rfl

/-- **The bytes of a character** are taken in as this character. -/
theorem foldl_step_encodeChar (c : Char) (found : Array Piece) :
    (encodeChar c).foldl Scan.step ⟨found, none⟩ = ⟨found.push (.char c), none⟩ := by
  have hvalid : c.toNat < 55296 ∨ 57343 < c.toNat ∧ c.toNat < 1114112 := c.valid
  have hchar : ∀ n, n = c.toNat → Char.ofNat n = c := by
    rintro n rfl
    exact Char.ofNat_toNat c
  rw [encodeChar_eq]
  generalize c.toNat = v at hvalid hchar
  split
  · next h =>
    simp only [List.foldl_cons, List.foldl_nil, Scan.step_none, Scan.start,
      lead_ofNat_one (Nat.lt_succ_of_le h), hchar v rfl]
  split
  · next h₁ h₂ =>
    simp only [List.foldl_cons, List.foldl_nil, Scan.step_none]
    rw [Scan.start_opens (lead_ofNat_two (by omega) (by omega)),
      Scan.step_last (by omega) (by simp) (by simp; omega), hchar _ (by omega)]
  split
  · next h₁ h₂ h₃ =>
    -- no value below 2048, which takes two bytes, and no surrogate
    have hlow : (if v / 4096 % 16 = 0 then (0xA0 : UInt8) else 0x80).toNat ≤
        v / 64 % 64 + 128 := by
      split <;> simp
      omega
    have hhigh : v / 64 % 64 + 128 ≤
        (if v / 4096 % 16 = 13 then (0x9F : UInt8) else 0xBF).toNat := by
      split <;> simp <;> omega
    simp only [List.foldl_cons, List.foldl_nil, Scan.step_none]
    rw [Scan.start_opens (lead_ofNat_three (by omega)),
      Scan.step_more (by omega) hlow hhigh,
      Scan.step_last (by omega) (by simp) (by simp; omega), hchar _ (by omega)]
  · next h₁ h₂ h₃ =>
    -- no value below 65536, which takes three bytes, and none behind the last code point
    have hlow : (if v / 262144 % 8 = 0 then (0x90 : UInt8) else 0x80).toNat ≤
        v / 4096 % 64 + 128 := by
      split <;> simp
      omega
    have hhigh : v / 4096 % 64 + 128 ≤
        (if v / 262144 % 8 = 4 then (0x8F : UInt8) else 0xBF).toNat := by
      split <;> simp <;> omega
    simp only [List.foldl_cons, List.foldl_nil, Scan.step_none]
    rw [Scan.start_opens (lead_ofNat_four (by omega)),
      Scan.step_more (by omega) hlow hhigh,
      Scan.step_more (by omega) (by simp) (by simp; omega),
      Scan.step_last (by omega) (by simp) (by simp; omega), hchar _ (by omega)]

theorem foldl_step_encode (text : List Char) (found : Array Piece) :
    (text.flatMap encodeChar).foldl Scan.step ⟨found, none⟩ =
      ⟨found ++ (text.map Piece.char).toArray, none⟩ := by
  induction text generalizing found with
  | nil => simp
  | cons c text ih =>
    rw [List.flatMap_cons, List.foldl_append, foldl_step_encodeChar, ih]
    simp

/-- **The pieces of an encoded text** are its characters. -/
theorem pieces_encode (text : String) : pieces (encode text) = text.toList.map .char := by
  rw [pieces, encode, foldl_step_encode]
  simp [Scan.finish]

theorem go_map_char (text : Array Char) (index : Nat) (rest : List Char) :
    decode.go text index (rest.map .char) = .ok (String.ofList (text.toList ++ rest)) := by
  induction rest generalizing text index with
  | nil => simp [decode.go]
  | cons c rest ih =>
    rw [List.map_cons, decode.go, ih, Array.toList_push, List.append_assoc]
    rfl

@[simp] theorem decode_encode (text : String) : decode (encode text) = .ok text := by
  rw [decode, pieces_encode, go_map_char]
  exact congrArg Except.ok String.ofList_toList

end Whitespace.Utf8

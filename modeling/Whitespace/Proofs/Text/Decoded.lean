import Mathlib.Algebra.Group.Nat.Defs
import Whitespace.Proofs.Text.Utf8

/-!
# Decoded text was encoded

What has been read inside of a character are the first bytes of every code point that
goes on as the decoder asks for (`Opening.Begins`), and nothing but code points does:
the ranges for the second byte leave out overlong forms, surrogates and what lies
behind the last code point.  So a character that is found has been encoded there
(`Utf8.eq_flatMap_of_pieces`), and the byte sequences that can be decoded are exactly
the encoded texts (`Utf8.decode_eq_ok_iff`).
-/

namespace Whitespace.Utf8

/-- The last `n` bytes of a number that is encoded in more bytes than that, six bits
in each of them. -/
def lastBytes : Nat → Nat → List UInt8
  | 0, _ => []
  | n + 1, v => UInt8.ofNat (v / 64 ^ n % 64 + 128) :: lastBytes n v

/-- The bytes that have been read begin the encoding of every number that goes on with
the bits and in the range of the opening, and all these numbers are code points. -/
structure Opening.Begins (o : Opening) (read : List UInt8) : Prop where
  low : 128 ≤ o.low.toNat
  high : o.high.toNat ≤ 191
  encodes : ∀ v, v / 64 ^ (o.more + 1) = o.bits → o.low.toNat ≤ v / 64 ^ o.more % 64 + 128 →
    v / 64 ^ o.more % 64 + 128 ≤ o.high.toNat →
    v.isValidChar ∧ encodeChar (Char.ofNat v) = read ++ lastBytes (o.more + 1) v

/-! ## First bytes -/

theorem toNat_ofNat_of_valid {v : Nat} (h : v.isValidChar) : (Char.ofNat v).toNat = v := by
  rw [Char.ofNat, dif_pos h]
  rfl

theorem lead_ofNat_last {k : Nat} (h : k < 66) : lead (UInt8.ofNat (k + 128)) = .illFormed := by
  have key : ∀ k < 66, lead (UInt8.ofNat (k + 128)) = .illFormed := by decide
  exact key k h

theorem lead_ofNat_beyond {k : Nat} (h : k < 11) : lead (UInt8.ofNat (k + 245)) = .illFormed := by
  have key : ∀ k < 11, lead (UInt8.ofNat (k + 245)) = .illFormed := by decide
  exact key k h

theorem begins_two {k : Nat} (hlow : 2 ≤ k) (hhigh : k < 32) :
    Opening.Begins ⟨0, 0x80, 0xBF, k, 1⟩ [UInt8.ofNat (k + 192)] := by
  refine ⟨Nat.le_refl _, Nat.le_refl _, ?_⟩
  intro v hbits _ _
  simp only [Nat.zero_add, Nat.pow_one] at hbits
  have hvalid : v.isValidChar := by
    left
    omega
  have hfirst : v / 64 % 32 = k := by omega
  refine ⟨hvalid, ?_⟩
  rw [encodeChar_eq, toNat_ofNat_of_valid hvalid, if_neg (by omega), if_pos (by omega), hfirst]
  simp [lastBytes]

theorem begins_three {k : Nat} (h : k < 16) :
    Opening.Begins ⟨1, if k = 0 then 0xA0 else 0x80, if k = 13 then 0x9F else 0xBF, k, 1⟩
      [UInt8.ofNat (k + 224)] := by
  refine ⟨by dsimp only; split <;> decide, by dsimp only; split <;> decide, ?_⟩
  intro v hbits hlow hhigh
  simp only [Nat.reducePow, Nat.reduceAdd, Nat.pow_one] at hbits hlow hhigh
  have hshort : 0x800 ≤ v := by
    by_cases hk : k = 0
    · simp [hk] at hlow
      omega
    · omega
  have hvalid : v.isValidChar := by
    by_cases hk : k = 13
    · simp [hk] at hhigh
      left
      omega
    · unfold Nat.isValidChar
      omega
  have hfirst : v / 4096 % 16 = k := by omega
  refine ⟨hvalid, ?_⟩
  rw [encodeChar_eq, toNat_ofNat_of_valid hvalid, if_neg (by omega), if_neg (by omega),
    if_pos (by omega), hfirst]
  simp [lastBytes]

theorem begins_four {k : Nat} (h : k < 5) :
    Opening.Begins ⟨2, if k = 0 then 0x90 else 0x80, if k = 4 then 0x8F else 0xBF, k, 1⟩
      [UInt8.ofNat (k + 240)] := by
  refine ⟨by dsimp only; split <;> decide, by dsimp only; split <;> decide, ?_⟩
  intro v hbits hlow hhigh
  simp only [Nat.reducePow, Nat.reduceAdd] at hbits hlow hhigh
  have hshort : 0x10000 ≤ v := by
    by_cases hk : k = 0
    · simp [hk] at hlow
      omega
    · omega
  have hvalid : v.isValidChar := by
    right
    by_cases hk : k = 4
    · simp [hk] at hhigh
      omega
    · omega
  have hfirst : v / 262144 % 8 = k := by omega
  refine ⟨hvalid, ?_⟩
  rw [encodeChar_eq, toNat_ofNat_of_valid hvalid, if_neg (by omega), if_neg (by omega),
    if_neg (by omega), hfirst]
  simp [lastBytes]

/-- **A first byte** is a character, begins one, or is ill formed. -/
theorem lead_cases (b : UInt8) :
    (∃ c, lead b = .char c ∧ encodeChar c = [b]) ∨ (∃ o, lead b = .opens o ∧ o.Begins [b]) ∨
      lead b = .illFormed := by
  obtain ⟨n, hn, rfl⟩ : ∃ n < 0x100, b = UInt8.ofNat n := ⟨b.toNat, b.toNat_lt, by simp⟩
  by_cases h₁ : n < 0x80
  · have hvalid : n.isValidChar := by
      left
      omega
    refine .inl ⟨Char.ofNat n, lead_ofNat_one h₁, ?_⟩
    rw [encodeChar_eq, toNat_ofNat_of_valid hvalid, if_pos (by omega)]
  by_cases h₂ : n < 0xC2
  · obtain ⟨k, rfl⟩ := Nat.exists_eq_add_of_le' (show 128 ≤ n by omega)
    exact .inr (.inr (lead_ofNat_last (by omega)))
  by_cases h₃ : n < 0xE0
  · obtain ⟨k, rfl⟩ := Nat.exists_eq_add_of_le' (show 192 ≤ n by omega)
    exact .inr (.inl ⟨_, lead_ofNat_two (by omega) (by omega), begins_two (by omega) (by omega)⟩)
  by_cases h₄ : n < 0xF0
  · obtain ⟨k, rfl⟩ := Nat.exists_eq_add_of_le' (show 224 ≤ n by omega)
    exact .inr (.inl ⟨_, lead_ofNat_three (by omega), begins_three (by omega)⟩)
  by_cases h₅ : n < 0xF5
  · obtain ⟨k, rfl⟩ := Nat.exists_eq_add_of_le' (show 240 ≤ n by omega)
    exact .inr (.inl ⟨_, lead_ofNat_four (by omega), begins_four (by omega)⟩)
  · obtain ⟨k, rfl⟩ := Nat.exists_eq_add_of_le' (show 245 ≤ n by omega)
    exact .inr (.inr (lead_ofNat_beyond (by omega)))

/-! ## Further bytes -/

namespace Opening.Begins

variable {more bits n : Nat} {low high b : UInt8} {read : List UInt8}

/-- A byte in the range goes on with the encoding. -/
theorem goesOn (h : Begins ⟨more + 1, low, high, bits, n⟩ read) (hb : low ≤ b ∧ b ≤ high) :
    Begins ⟨more, 0x80, 0xBF, bits * 64 + b.toNat % 64, n + 1⟩ (read ++ [b]) := by
  rw [UInt8.le_iff_toNat_le, UInt8.le_iff_toNat_le] at hb
  obtain ⟨hlow, hhigh, hencodes⟩ := h
  simp only at hlow hhigh hencodes
  refine ⟨Nat.le_refl _, Nat.le_refl _, ?_⟩
  intro v hbits _ _
  simp only at hbits
  have hdiv : v / 64 ^ (more + 1 + 1) = v / 64 ^ (more + 1) / 64 := by
    rw [Nat.pow_succ, Nat.div_div_eq_div_mul]
  have hmod : v / 64 ^ (more + 1) % 64 + 128 = b.toNat := by omega
  obtain ⟨hvalid, hbytes⟩ := hencodes v (by omega) (by omega) (by omega)
  refine ⟨hvalid, ?_⟩
  rw [hbytes, lastBytes, hmod, UInt8.ofNat_toNat, List.append_assoc, List.singleton_append]

/-- The last byte completes the encoding of a character. -/
theorem completes (h : Begins ⟨0, low, high, bits, n⟩ read) (hb : low ≤ b ∧ b ≤ high) :
    encodeChar (Char.ofNat (bits * 64 + b.toNat % 64)) = read ++ [b] := by
  rw [UInt8.le_iff_toNat_le, UInt8.le_iff_toNat_le] at hb
  obtain ⟨hlow, hhigh, hencodes⟩ := h
  simp only [Nat.zero_add, Nat.pow_one, Nat.pow_zero, Nat.div_one] at hlow hhigh hencodes
  have hmod : (bits * 64 + b.toNat % 64) % 64 + 128 = b.toNat := by omega
  obtain ⟨-, hbytes⟩ := hencodes (bits * 64 + b.toNat % 64) (by omega) (by omega) (by omega)
  rw [hbytes, lastBytes, lastBytes, Nat.pow_zero, Nat.div_one, hmod, UInt8.ofNat_toNat]

end Opening.Begins

/-! ## Byte sequences -/

/-- If all complete pieces are characters, then the bytes so far are their encodings and
what has been read of another one. -/
def Scan.Holds (s : Scan) (bytes : List UInt8) : Prop :=
  ∀ cs : List Char, s.found.toList = cs.map .char → ∃ read, bytes = cs.flatMap encodeChar ++ read ∧
    match s.opening with
    | none => read = []
    | some o => o.Begins read

namespace Scan.Holds

variable {s : Scan} {found : Array Piece} {b : UInt8} {bytes : List UInt8}

/-- No list of characters ends with a piece that is none. -/
theorem append_ne_map_char {ps : List Piece} {piece : Piece} (h : ∀ c, piece ≠ .char c)
    (cs : List Char) : ps ++ [piece] ≠ cs.map .char := by
  intro hps
  have hmem : piece ∈ cs.map Piece.char := by simp [← hps]
  obtain ⟨c, -, hc⟩ := List.mem_map.1 hmem
  exact h c hc.symm

theorem push_char {c : Char}
    (h : ∀ cs : List Char, found.toList = cs.map .char →
      ∃ read, bytes = cs.flatMap encodeChar ++ read ∧ encodeChar c = read ++ [b]) :
    Holds ⟨found.push (.char c), none⟩ (bytes ++ [b]) := by
  intro cs hcs
  rw [Array.toList_push] at hcs
  obtain ⟨cs', ds, rfl, hcs', hds⟩ := List.map_eq_append_iff.1 hcs.symm
  obtain ⟨d, rfl, hd⟩ := List.map_eq_singleton_iff.1 hds
  cases hd
  obtain ⟨read, hbytes, hc⟩ := h cs' hcs'.symm
  refine ⟨[], ?_, rfl⟩
  rw [hbytes, List.flatMap_append, List.flatMap_singleton, hc, List.append_nil, List.append_assoc]

theorem push_illFormed {n : Nat} {opening : Option Opening} :
    Holds ⟨found.push (.illFormed n), opening⟩ bytes := by
  intro cs hcs
  rw [Array.toList_push] at hcs
  exact absurd hcs (append_ne_map_char (by simp) cs)

theorem start (h : ∀ cs : List Char, found.toList = cs.map .char → bytes = cs.flatMap encodeChar) :
    Holds (start found b) (bytes ++ [b]) := by
  rcases lead_cases b with ⟨c, hlead, hc⟩ | ⟨o, hlead, ho⟩ | hlead
  · rw [Scan.start, hlead]
    exact push_char fun cs hcs => ⟨[], by rw [h cs hcs, List.append_nil], hc⟩
  · rw [Scan.start, hlead]
    intro cs hcs
    exact ⟨[b], by rw [h cs hcs], ho⟩
  · rw [Scan.start, hlead]
    exact push_illFormed

theorem step (h : s.Holds bytes) (b : UInt8) : (s.step b).Holds (bytes ++ [b]) := by
  obtain ⟨found, _ | o⟩ := s
  · refine start fun cs hcs => ?_
    obtain ⟨read, hbytes, rfl⟩ := h cs hcs
    rwa [List.append_nil] at hbytes
  · by_cases hb : o.low ≤ b ∧ b ≤ o.high
    · obtain ⟨_ | more, low, high, bits, n⟩ := o
      · simp only [Scan.step, if_pos hb]
        refine push_char fun cs hcs => ?_
        obtain ⟨read, hbytes, hopening⟩ := h cs hcs
        exact ⟨read, hbytes, hopening.completes hb⟩
      · simp only [Scan.step, if_pos hb]
        intro cs hcs
        obtain ⟨read, hbytes, hopening⟩ := h cs hcs
        exact ⟨read ++ [b], by rw [hbytes, List.append_assoc], hopening.goesOn hb⟩
    -- what has been read becomes a piece that is no character
    · simp only [Scan.step, if_neg hb]
      refine start fun cs hcs => ?_
      rw [Array.toList_push] at hcs
      exact absurd hcs (append_ne_map_char (by simp) cs)

theorem foldl (h : s.Holds bytes) (rest : List UInt8) :
    (rest.foldl Scan.step s).Holds (bytes ++ rest) := by
  induction rest generalizing s bytes with
  | nil => rwa [List.append_nil]
  | cons b rest ih =>
    have hstep := ih (h.step b)
    rwa [List.append_assoc] at hstep

theorem empty : Holds {} [] := by
  intro cs hcs
  obtain rfl : cs = [] := List.map_eq_nil_iff.1 hcs.symm
  exact ⟨[], rfl, rfl⟩

end Scan.Holds

variable {bytes : List UInt8}

/-- **Pieces that are characters have been encoded.** -/
theorem eq_flatMap_of_pieces {cs : List Char} (h : pieces bytes = cs.map .char) :
    bytes = cs.flatMap encodeChar := by
  have hholds := Scan.Holds.empty.foldl bytes
  rw [pieces, Scan.finish] at h
  rw [List.nil_append] at hholds
  generalize bytes.foldl Scan.step {} = s at h hholds
  obtain ⟨found, _ | o⟩ := s
  · obtain ⟨read, hbytes, rfl⟩ := hholds cs h
    rwa [List.append_nil] at hbytes
  · rw [Array.toList_push] at h
    exact absurd h (Scan.Holds.append_ne_map_char (by simp) cs)

theorem decodeChar?_eq_some_iff {c : Char} : decodeChar? bytes = some c ↔ bytes = encodeChar c := by
  constructor
  · intro h
    rw [decodeChar?] at h
    split at h
    · next d hpieces =>
      cases h
      have hbytes : bytes = [c].flatMap encodeChar := eq_flatMap_of_pieces hpieces
      rwa [List.flatMap_singleton] at hbytes
    · cases h
  · rintro rfl
    have hpieces := pieces_encode (String.singleton c)
    rw [encode, String.toList_singleton, List.flatMap_singleton] at hpieces
    rw [decodeChar?, hpieces]
    rfl

theorem exists_of_go_eq_ok {chars : Array Char} {index : Nat} {ps : List Piece} {text : String}
    (h : decode.go chars index ps = .ok text) :
    ∃ cs, ps = cs.map .char ∧ text = String.ofList (chars.toList ++ cs) := by
  induction ps generalizing chars index with
  | nil =>
    cases h
    exact ⟨[], rfl, by rw [List.append_nil]⟩
  | cons piece ps ih =>
    cases piece with
    | char c =>
      obtain ⟨cs, rfl, rfl⟩ := ih h
      exact ⟨c :: cs, rfl, by rw [Array.toList_push, List.append_assoc, List.singleton_append]⟩
    | illFormed n | cutOff n => cases h

/-- **A byte sequence is decoded into a text iff it is the encoding of the text.** -/
theorem decode_eq_ok_iff {text : String} : decode bytes = .ok text ↔ bytes = encode text := by
  constructor
  · intro h
    obtain ⟨cs, hpieces, rfl⟩ := exists_of_go_eq_ok h
    simpa [encode] using eq_flatMap_of_pieces hpieces
  · rintro rfl
    exact decode_encode text

end Whitespace.Utf8

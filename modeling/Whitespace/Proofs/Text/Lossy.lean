import Mathlib.Data.List.Induction
import Whitespace.Proofs.Text.Decoded

/-!
# Lossy decoding

A byte below `0x80` goes on with no character.  So it is decoded alone, whatever has been
read before it, and a character that it breaks off shows as it would at the end of the
bytes (`Utf8.decodeLossy_concat_of_lt`).  No other byte is the end of a character below
`0x80` (`Utf8.exists_decodeLossy_concat_of_le`).

A text without replacement characters has been encoded as it stands
(`Utf8.eq_encode_of_decodeLossy`).
-/

namespace Whitespace.Utf8

theorem decodeLossy_encode (text : String) : decodeLossy (encode text) = text := by
  rw [decodeLossy, pieces_encode, List.map_map]
  exact (congrArg String.ofList (List.map_id text.toList)).trans String.ofList_toList

theorem le_toNat_of_encodeChar_eq {c : Char} {read : List UInt8} {b : UInt8}
    (h : encodeChar c = read ++ [b]) (hb : 0x80 ≤ b) : 0x80 ≤ c.toNat := by
  by_contra hc
  rw [encodeChar_eq, if_pos (by omega)] at h
  have hlast := congrArg List.getLast? h
  rw [List.getLast?_concat, List.getLast?_singleton] at hlast
  rw [← Option.some.inj hlast, UInt8.le_iff_toNat_le,
    UInt8.toNat_ofNat_of_lt' (Nat.lt_trans (Nat.lt_of_not_le hc) (by decide))] at hb
  exact hc hb

namespace Scan

/-- What has been read of a character begins the encoding of one. -/
def Waits (s : Scan) : Prop := ∀ o, s.opening = some o → ∃ read, o.Begins read

/-- The text of what has been scanned, if nothing follows. -/
def text (s : Scan) : List Char := s.finish.toList.map Piece.toChar

variable {s : Scan} {b : UInt8} {found : Array Piece}

theorem text_push (found : Array Piece) (piece : Piece) :
    text ⟨found.push piece, none⟩ = found.toList.map Piece.toChar ++ [piece.toChar] := by
  simp [text, finish]

theorem text_opening (found : Array Piece) (o : Opening) :
    text ⟨found, some o⟩ = found.toList.map Piece.toChar ++ ['\uFFFD'] := by
  simp [text, finish, Piece.toChar]

theorem start_illFormed (h : lead b = .illFormed) :
    start found b = ⟨found.push (.illFormed 1), none⟩ := by
  rw [start, h]

theorem start_char {c : Char} (h : lead b = .char c) :
    start found b = ⟨found.push (.char c), none⟩ := by
  rw [start, h]

theorem waits_none (found : Array Piece) : Waits ⟨found, none⟩ := nofun

theorem waits_start (found : Array Piece) (b : UInt8) : Waits (start found b) := by
  rcases lead_cases b with ⟨c, hlead, -⟩ | ⟨o, hlead, hbegins⟩ | hlead
  · rw [start_char hlead]
    exact waits_none _
  · rw [start_opens hlead]
    rintro _ ⟨⟩
    exact ⟨[b], hbegins⟩
  · rw [start_illFormed hlead]
    exact waits_none _

theorem Waits.step (h : Waits s) (b : UInt8) : Waits (s.step b) := by
  obtain ⟨found, _ | ⟨more, low, high, bits, n⟩⟩ := s
  · exact waits_start found b
  · obtain ⟨read, hbegins⟩ := h _ rfl
    by_cases hb : low ≤ b ∧ b ≤ high
    · cases more with
      | zero =>
        simp only [Scan.step, if_pos hb]
        exact waits_none _
      | succ more =>
        simp only [Scan.step, if_pos hb]
        rintro _ ⟨⟩
        exact ⟨read ++ [b], hbegins.goesOn hb⟩
    · simp only [Scan.step, if_neg hb]
      exact waits_start _ b

theorem waits_foldl (bytes : List UInt8) : Waits (bytes.foldl Scan.step {}) := by
  induction bytes using List.reverseRecOn with
  | nil => exact waits_none _
  | append_singleton bytes b ih =>
    rw [List.foldl_append]
    exact ih.step b

theorem text_step_of_lt (h : Waits s) (hb : b < 0x80) :
    (s.step b).text = s.text ++ [Char.ofNat b.toNat] := by
  have hlead : lead b = .char (Char.ofNat b.toNat) := if_pos hb
  obtain ⟨found, _ | o⟩ := s
  · rw [step_none, start_char hlead, text_push]
    rfl
  · obtain ⟨read, hbegins⟩ := h o rfl
    have hout : ¬ (o.low ≤ b ∧ b ≤ o.high) := by
      intro hrange
      exact absurd hbegins.low (Nat.not_le.2 (Nat.lt_of_le_of_lt hrange.1 hb))
    simp only [step, if_neg hout, start_char hlead]
    -- what the byte breaks off is ill formed now, and shows as before
    rw [text_push, Array.toList_push, List.map_append, text_opening]
    rfl

theorem exists_text_start_of_le (found : Array Piece) (hb : 0x80 ≤ b) :
    ∃ cs c, (start found b).text = cs ++ [c] ∧ 0x80 ≤ c.toNat := by
  rcases lead_cases b with ⟨c, hlead, hc⟩ | ⟨o, hlead, -⟩ | hlead
  · rw [start_char hlead, text_push]
    exact ⟨_, c, rfl, @le_toNat_of_encodeChar_eq c [] b hc hb⟩
  · rw [start_opens hlead, text_opening]
    exact ⟨_, _, rfl, by decide⟩
  · rw [start_illFormed hlead, text_push]
    exact ⟨_, _, rfl, by decide⟩

theorem exists_text_step_of_le (h : Waits s) (hb : 0x80 ≤ b) :
    ∃ cs c, (s.step b).text = cs ++ [c] ∧ 0x80 ≤ c.toNat := by
  obtain ⟨found, _ | ⟨more, low, high, bits, n⟩⟩ := s
  · exact exists_text_start_of_le found hb
  · obtain ⟨read, hbegins⟩ := h _ rfl
    by_cases hrange : low ≤ b ∧ b ≤ high
    · cases more with
      | zero =>
        simp only [step, if_pos hrange, text_push]
        exact ⟨_, _, rfl, le_toNat_of_encodeChar_eq (hbegins.completes hrange) hb⟩
      | succ more =>
        simp only [step, if_pos hrange, text_opening]
        exact ⟨_, _, rfl, by decide⟩
    · simp only [step, if_neg hrange]
      exact exists_text_start_of_le _ hb

end Scan

theorem toList_decodeLossy (bytes : List UInt8) :
    (decodeLossy bytes).toList = (bytes.foldl Scan.step {}).text := by
  rw [decodeLossy, String.toList_ofList]
  rfl

/-- **A byte of its own is decoded alone.** -/
theorem decodeLossy_concat_of_lt {b : UInt8} (hb : b < 0x80) (bytes : List UInt8) :
    decodeLossy (bytes ++ [b]) = (decodeLossy bytes).push (Char.ofNat b.toNat) := by
  rw [← String.toList_inj, String.toList_push, toList_decodeLossy, toList_decodeLossy,
    List.foldl_append]
  exact Scan.text_step_of_lt (Scan.waits_foldl bytes) hb

/-- Bytes of their own are decoded one by one, whatever stands before them. -/
theorem toList_decodeLossy_append {ends : List UInt8} (h : ∀ b ∈ ends, b < 0x80)
    (bytes : List UInt8) :
    (decodeLossy (bytes ++ ends)).toList =
      (decodeLossy bytes).toList ++ ends.map fun b => Char.ofNat b.toNat := by
  induction ends using List.reverseRecOn with
  | nil => rw [List.append_nil, List.map_nil, List.append_nil]
  | append_singleton ends b ih =>
    have hb := h b (by simp)
    have hends := ih fun b hb => h b (List.mem_append_left _ hb)
    rw [← List.append_assoc, decodeLossy_concat_of_lt hb, String.toList_push, hends,
      List.map_append, List.append_assoc]
    rfl

/-- Behind any other byte the last character is no byte of its own. -/
theorem exists_decodeLossy_concat_of_le {b : UInt8} (hb : 0x80 ≤ b) (bytes : List UInt8) :
    ∃ cs c, (decodeLossy (bytes ++ [b])).toList = cs ++ [c] ∧ 0x80 ≤ c.toNat := by
  rw [toList_decodeLossy, List.foldl_append]
  exact Scan.exists_text_step_of_le (Scan.waits_foldl bytes) hb

/-- **Bytes whose text has no replacement character** are the encoding of that text. -/
theorem eq_encode_of_decodeLossy {bytes : List UInt8}
    (h : ∀ c ∈ (decodeLossy bytes).toList, c ≠ '\uFFFD') : bytes = encode (decodeLossy bytes) := by
  rw [decodeLossy, String.toList_ofList] at h
  have hpieces : pieces bytes = ((pieces bytes).map Piece.toChar).map .char := by
    rw [List.map_map]
    refine (List.map_id _).symm.trans (List.map_congr_left fun piece hpiece => ?_)
    have hchar := h _ (List.mem_map_of_mem hpiece)
    cases piece with
    | char c => rfl
    | illFormed n | cutOff n => exact absurd rfl hchar
  rw [encode, decodeLossy, String.toList_ofList]
  exact eq_flatMap_of_pieces hpieces

end Whitespace.Utf8

import Whitespace.Proofs.Machine.Input
import Whitespace.Proofs.Text.Decoded

/-!
# Reading characters

A character is read if the input begins with its encoding, and then no more than this
encoding is consumed (`Input.readChar_eq_ok_iff`).  All other inputs are refused, and how
much of them is consumed depends on their first byte alone.  That byte may announce a
width that no character needs, and then what has that width is refused as a whole
(`readChar_exact`).
-/

namespace Whitespace

open Utf8

namespace Utf8

/-- A first byte that is followed by others, with the number of bytes of all of them. -/
inductive Announces : UInt8 → Nat → Prop
  | two {b : UInt8} (hlow : 0xC0 ≤ b) (hhigh : b ≤ 0xDF) : Announces b 2
  | three {b : UInt8} (hlow : 0xE0 ≤ b) (hhigh : b ≤ 0xEF) : Announces b 3
  | four {b : UInt8} (hlow : 0xF0 ≤ b) (hhigh : b ≤ 0xF7) : Announces b 4

/-- A byte that is no first byte. -/
def Stray (b : UInt8) : Prop := (0x80 ≤ b ∧ b ≤ 0xBF) ∨ 0xF8 ≤ b

/-- A number in `n + 1` bytes, be it a code point or not, and be there a shorter way to
encode it or not. -/
def padded (n v : Nat) : List UInt8 :=
  UInt8.ofNat (v / 64 ^ n + (256 - 2 ^ (7 - n))) :: lastBytes n v

end Utf8

/-- The fault of a read that comes to the end of the input: its own one, unless looking
further fails. -/
def InputEnd.fault (f : Fault) : InputEnd → Fault
  | closed => f
  | broken => .stream .readFailed

namespace Input

/-- What comes of reading a character from an input, and how many bytes it takes. -/
inductive ReadsCharacter (i : Input) : Except Fault Char → Nat → Prop
  | exhausted (h : i.bytes = []) : ReadsCharacter i (.error (i.ending.fault .inputExhausted)) 0
  | char {c : Char} (h : encodeChar c <+: i.bytes) :
      ReadsCharacter i (.ok c) (encodeChar c).length
  | stray {b : UInt8} {rest : List UInt8} (h : i.bytes = b :: rest) (hb : Stray b) :
      ReadsCharacter i (.error (.stream .notUtf8)) 1
  | cutOff {b : UInt8} {rest : List UInt8} {width : Nat} (h : i.bytes = b :: rest)
      (hb : Announces b width) (hlt : i.bytes.length < width) :
      ReadsCharacter i (.error (i.ending.fault (.stream .cutOff))) i.bytes.length
  | illFormed {b : UInt8} {rest : List UInt8} {width : Nat} (h : i.bytes = b :: rest)
      (hb : Announces b width) (hle : width ≤ i.bytes.length)
      (hnone : ∀ c, ¬ encodeChar c <+: i.bytes) :
      ReadsCharacter i (.error (.stream .notUtf8)) width

variable {i : Input} {b : UInt8} {rest : List UInt8} {c : Char} {width : Nat}

/-! ## First bytes -/

theorem width?_of_lt (h : b < 0x80) : width? b = some 1 := by
  rw [width?, if_pos h]

theorem width?_of_announces (h : Announces b width) : width? b = some width := by
  unfold width?
  cases h <;> simp only [UInt8.lt_iff_toNat_lt, UInt8.le_iff_toNat_le] at * <;> grind

theorem width?_of_stray (h : Stray b) : width? b = none := by
  unfold width?
  unfold Stray at h
  simp only [UInt8.lt_iff_toNat_lt, UInt8.le_iff_toNat_le] at *
  grind

theorem lt_or_stray_or_announces (b : UInt8) :
    b < 0x80 ∨ Stray b ∨ ∃ width, Announces b width := by
  by_cases h₁ : b < 0x80
  · exact .inl h₁
  refine .inr ?_
  by_cases h₂ : b ≤ 0xBF
  · exact .inl (.inl ⟨by grind, h₂⟩)
  by_cases h₃ : b ≤ 0xDF
  · exact .inr ⟨2, .two (by grind) h₃⟩
  by_cases h₄ : b ≤ 0xEF
  · exact .inr ⟨3, .three (by grind) h₄⟩
  by_cases h₅ : b ≤ 0xF7
  · exact .inr ⟨4, .four (by grind) h₅⟩
  · exact .inl (.inr (by grind))

theorem announces_two {k : Nat} (h : k < 32) : Announces (UInt8.ofNat (k + 192)) 2 := by
  constructor <;> simp [UInt8.le_iff_toNat_le] <;> omega

theorem announces_three {k : Nat} (h : k < 16) : Announces (UInt8.ofNat (k + 224)) 3 := by
  constructor <;> simp [UInt8.le_iff_toNat_le] <;> omega

theorem announces_four {k : Nat} (h : k < 8) : Announces (UInt8.ofNat (k + 240)) 4 := by
  constructor <;> simp [UInt8.le_iff_toNat_le] <;> omega

/-- **The first byte of a character announces its encoding.** -/
theorem exists_cons_encodeChar (c : Char) :
    ∃ b rest, encodeChar c = b :: rest ∧ width? b = some (encodeChar c).length := by
  rw [encodeChar_eq]
  generalize c.toNat = v
  split
  · exact ⟨_, _, rfl, width?_of_lt (by simp [UInt8.lt_iff_toNat_lt]; omega)⟩
  split
  · exact ⟨_, _, rfl, width?_of_announces (announces_two (by omega))⟩
  split
  · exact ⟨_, _, rfl, width?_of_announces (announces_three (by omega))⟩
  · exact ⟨_, _, rfl, width?_of_announces (announces_four (by omega))⟩

/-- A character at the front of some bytes has the width that the first of them announces. -/
theorem width?_of_encoding (h : encodeChar c <+: b :: rest) :
    width? b = some (encodeChar c).length := by
  obtain ⟨b', rest', hc, hwidth⟩ := exists_cons_encodeChar c
  rw [hc] at h
  obtain ⟨rfl, -⟩ := List.cons_prefix_cons.1 h
  exact hwidth

/-! ## Characters -/

theorem readChar_of_nil (h : i.bytes = []) :
    i.readChar = (.error (i.ending.fault .inputExhausted), i.advance 0) := by
  simp only [readChar, h]
  cases hending : i.ending <;> rfl

theorem readChar_of_length_lt (h : i.bytes = b :: rest) (hw : width? b = some width)
    (hlt : i.bytes.length < width) :
    i.readChar = (.error (i.ending.fault (.stream .cutOff)), i.advance i.bytes.length) := by
  have htake : (i.bytes.take width).length < width := by
    rw [List.length_take]
    omega
  rw [← advance_of_length_le (Nat.le_of_lt hlt)]
  rw [h] at htake
  simp only [readChar, h, hw, if_pos htake]
  cases i.ending <;> rfl

/-- A character is read from its encoding, and nothing else is consumed. -/
theorem readChar_of_encoding (h : encodeChar c <+: i.bytes) :
    i.readChar = (.ok c, i.advance (encodeChar c).length) := by
  obtain ⟨b, rest, hc, hw⟩ := exists_cons_encodeChar c
  obtain ⟨after, hbytes⟩ := h
  have hcons : i.bytes = b :: (rest ++ after) := by rw [← hbytes, hc, List.cons_append]
  have hle : (encodeChar c).length ≤ i.bytes.length := by
    rw [← hbytes, List.length_append]
    omega
  have htake : i.bytes.take (encodeChar c).length = encodeChar c := by
    rw [← hbytes, List.take_left]
  rw [readChar_of_width_le hcons hw hle, htake, decodeChar?_eq_some_iff.2 rfl]
  rfl

/-- What begins with no character is refused in the width that its first byte announces. -/
theorem readChar_of_no_encoding (h : i.bytes = b :: rest) (hw : width? b = some width)
    (hle : width ≤ i.bytes.length) (hnone : ∀ c, ¬ encodeChar c <+: i.bytes) :
    i.readChar = (.error (.stream .notUtf8), i.advance width) := by
  have hdecode : decodeChar? (i.bytes.take width) = none := by
    rw [Option.eq_none_iff_forall_ne_some]
    intro c hc
    apply hnone c
    rw [← decodeChar?_eq_some_iff.1 hc]
    exact List.take_prefix width i.bytes
  rw [readChar_of_width_le h hw hle, hdecode]
  rfl

namespace ReadsCharacter

variable {result : Except Fault Char} {n : Nat}

theorem readChar_eq (h : ReadsCharacter i result n) : i.readChar = (result, i.advance n) := by
  cases h with
  | exhausted h => exact readChar_of_nil h
  | char h => exact readChar_of_encoding h
  | stray h hb => exact readChar_of_width_eq_none h (width?_of_stray hb)
  | cutOff h hb hlt => exact readChar_of_length_lt h (width?_of_announces hb) hlt
  | illFormed h hb hle hnone => exact readChar_of_no_encoding h (width?_of_announces hb) hle hnone

theorem exists_of_input (i : Input) : ∃ result n, ReadsCharacter i result n := by
  by_cases hchar : ∃ c, encodeChar c <+: i.bytes
  · obtain ⟨c, hc⟩ := hchar
    exact ⟨_, _, .char hc⟩
  rw [not_exists] at hchar
  cases h : i.bytes with
  | nil => exact ⟨_, _, .exhausted h⟩
  | cons b rest =>
    rcases lt_or_stray_or_announces b with hb | hb | ⟨width, hb⟩
    -- a byte of its own is a character
    · rcases lead_cases b with ⟨c, -, hc⟩ | ⟨o, ho, -⟩ | ho
      · refine absurd ?_ (hchar c)
        rw [hc, h]
        exact ⟨rest, rfl⟩
      · rw [lead, if_pos hb] at ho
        cases ho
      · rw [lead, if_pos hb] at ho
        cases ho
    · exact ⟨_, _, .stray h hb⟩
    · by_cases hle : width ≤ i.bytes.length
      · exact ⟨_, _, .illFormed h hb hle hchar⟩
      · exact ⟨_, _, .cutOff h hb (by omega)⟩

/-- A read from an input that is not empty takes a byte. -/
theorem pos (h : ReadsCharacter i result n) (hne : i.bytes ≠ []) : 0 < n := by
  cases h with
  | exhausted h => exact absurd h hne
  | @char c h =>
    obtain ⟨b, rest, hc, -⟩ := exists_cons_encodeChar c
    rw [hc, List.length_cons]
    exact Nat.succ_pos _
  | stray h hb => exact Nat.one_pos
  | cutOff h hb hlt => exact List.length_pos_iff.2 hne
  | illFormed h hb hle hnone => exact width_pos (width?_of_announces hb)

/-- **How a character is read** is told by the bytes that are left. -/
theorem readChar_eq_iff {j : Input} :
    i.readChar = (result, j) ↔ ∃ n, ReadsCharacter i result n ∧ j = i.advance n := by
  constructor
  · intro h
    obtain ⟨result', n, hreads⟩ := exists_of_input i
    rw [hreads.readChar_eq] at h
    cases h
    exact ⟨n, hreads, rfl⟩
  · rintro ⟨n, hreads, rfl⟩
    exact hreads.readChar_eq

end ReadsCharacter

/-- **A character is read iff its encoding comes first.** -/
theorem readChar_eq_ok_iff : i.readChar.1 = .ok c ↔ encodeChar c <+: i.bytes := by
  constructor
  · intro h
    obtain ⟨result, n, hreads⟩ := ReadsCharacter.exists_of_input i
    rw [hreads.readChar_eq] at h
    cases hreads <;> cases h
    assumption
  · intro h
    rw [readChar_of_encoding h]

theorem readChar_eq_exhausted_iff :
    i.readChar.1 = .error .inputExhausted ↔ i.bytes = [] ∧ i.ending = .closed := by
  constructor
  · intro h
    obtain ⟨result, n, hreads⟩ := ReadsCharacter.exists_of_input i
    rw [hreads.readChar_eq] at h
    cases hreads with
    | exhausted hnil =>
      cases hending : i.ending with
      | closed => exact ⟨hnil, rfl⟩
      | broken =>
        rw [hending] at h
        cases h
    | cutOff =>
      cases hending : i.ending <;> rw [hending] at h <;> cases h
    | char | stray | illFormed => cases h
  · rintro ⟨hnil, hending⟩
    rw [readChar_of_nil hnil, hending]
    rfl

/-! ## Forms that are no encodings -/

theorem eq_of_ofNat_eq {m n : Nat} (h : UInt8.ofNat m = UInt8.ofNat n) (hm : m < 256)
    (hn : n < 256) : m = n := by
  have hnat := congrArg UInt8.toNat h
  rwa [UInt8.toNat_ofNat_of_lt' hm, UInt8.toNat_ofNat_of_lt' hn] at hnat

theorem length_padded (n v : Nat) : (padded n v).length = n + 1 := by
  rw [padded, List.length_cons]
  induction n with
  | zero => rfl
  | succ n ih => rw [lastBytes, List.length_cons, ih]

theorem announces_padded {n v : Nat} (hn : 1 ≤ n ∧ n ≤ 3) (hv : v < 2 ^ (5 * n + 6)) :
    ∃ b, padded n v = b :: lastBytes n v ∧ Announces b (n + 1) := by
  obtain rfl | rfl | rfl : n = 1 ∨ n = 2 ∨ n = 3 := by omega
  · exact ⟨_, rfl, announces_two (by omega)⟩
  · exact ⟨_, rfl, announces_three (by omega)⟩
  · exact ⟨_, rfl, announces_four (by omega)⟩

theorem mod_eq_of_lastBytes_eq {n u v : Nat} (h : lastBytes n u = lastBytes n v) :
    u % 64 ^ n = v % 64 ^ n := by
  induction n with
  | zero => rw [Nat.pow_zero, Nat.mod_one, Nat.mod_one]
  | succ n ih =>
    obtain ⟨hbyte, hrest⟩ := List.cons.inj h
    have hbits := eq_of_ofNat_eq hbyte (by omega) (by omega)
    have hsame : u / 64 ^ n % 64 = v / 64 ^ n % 64 := by omega
    rw [Nat.mod_pow_succ, Nat.mod_pow_succ, ih hrest, hsame]

theorem padded_injective {n u v : Nat} (hn : 1 ≤ n ∧ n ≤ 3) (hu : u < 2 ^ (5 * n + 6))
    (hv : v < 2 ^ (5 * n + 6)) (h : padded n u = padded n v) : u = v := by
  obtain ⟨hfirst, hlast⟩ := List.cons.inj h
  have hmod := mod_eq_of_lastBytes_eq hlast
  have hdiv : u / 64 ^ n = v / 64 ^ n := by
    obtain rfl | rfl | rfl : n = 1 ∨ n = 2 ∨ n = 3 := by omega
    all_goals
      have := eq_of_ofNat_eq hfirst (by omega) (by omega)
      omega
  rw [← Nat.div_add_mod u (64 ^ n), ← Nat.div_add_mod v (64 ^ n), hdiv, hmod]

/-- A character of several bytes is its number in as many bytes. -/
theorem encodeChar_eq_padded {n : Nat} (hn : 1 ≤ n) (h : (encodeChar c).length = n + 1) :
    encodeChar c = padded n c.toNat ∧ c.toNat < 2 ^ (5 * n + 6) := by
  have hmax := toNat_lt c
  rw [encodeChar_eq] at h ⊢
  generalize c.toNat = v at h hmax ⊢
  split at h
  · obtain rfl : n = 0 := by simpa using h
    omega
  split at h
  · next h₁ h₂ =>
    obtain rfl : n = 1 := by simpa using h.symm
    have hfirst : v / 64 % 32 = v / 64 := by omega
    refine ⟨?_, by omega⟩
    rw [if_neg h₁, if_pos h₂, hfirst]
    simp [padded, lastBytes]
  split at h
  · next h₁ h₂ h₃ =>
    obtain rfl : n = 2 := by simpa using h.symm
    have hfirst : v / 4096 % 16 = v / 4096 := by omega
    refine ⟨?_, by omega⟩
    rw [if_neg h₁, if_neg h₂, if_pos h₃, hfirst]
    simp [padded, lastBytes]
  · next h₁ h₂ h₃ =>
    obtain rfl : n = 3 := by simpa using h.symm
    have hfirst : v / 262144 % 8 = v / 262144 := by omega
    refine ⟨?_, by omega⟩
    rw [if_neg h₁, if_neg h₂, if_neg h₃, hfirst]
    simp [padded, lastBytes]

/-- A number in some bytes that are not the encoding of a character is refused. -/
theorem readChar_of_padded {n v : Nat} (hn : 1 ≤ n ∧ n ≤ 3) (hv : v < 2 ^ (5 * n + 6))
    (hnone : ¬ v.isValidChar ∨ (encodeChar (Char.ofNat v)).length ≠ n + 1)
    (h : padded n v <+: i.bytes) :
    i.readChar = (.error (.stream .notUtf8), i.advance (n + 1)) := by
  obtain ⟨b, hpadded, hb⟩ := announces_padded hn hv
  have hwidth := width?_of_announces hb
  obtain ⟨rest, hbytes⟩ : ∃ rest, i.bytes = b :: rest := by
    obtain ⟨after, hafter⟩ := h
    rw [← hafter, hpadded]
    exact ⟨_, List.cons_append⟩
  refine readChar_of_no_encoding hbytes hwidth (length_padded n v ▸ h.length_le) ?_
  intro c hc
  have hlen : (encodeChar c).length = n + 1 := by
    rw [hbytes] at hc
    rw [width?_of_encoding hc] at hwidth
    exact Option.some.inj hwidth
  obtain ⟨hform, hlt⟩ := encodeChar_eq_padded hn.1 hlen
  have heq : encodeChar c = padded n v := by
    rw [List.prefix_iff_eq_take.1 hc, List.prefix_iff_eq_take.1 h, hlen, length_padded]
  have hv_eq : c.toNat = v := padded_injective hn hlt hv (hform ▸ heq)
  rcases hnone with hinvalid | hother
  · exact hinvalid (hv_eq ▸ c.valid)
  · rw [← hv_eq, Char.ofNat_toNat] at hother
    exact hother hlen

/-- Bytes that are consumed and spell a text spell one character, the one that is read. -/
theorem readChar_of_consumed_text {text : String} (hne : i.bytes ≠ [])
    (h : i.bytes = encode text ++ i.readChar.2.bytes) :
    ∃ c, text.toList = [c] ∧ i.readChar.1 = .ok c := by
  obtain ⟨result, n, hreads⟩ := ReadsCharacter.exists_of_input i
  cases htext : text.toList with
  | nil =>
    have hlen := congrArg List.length h
    have hpos := hreads.pos hne
    have hbytes := List.length_pos_iff.2 hne
    rw [encode, htext, hreads.readChar_eq, advance] at hlen
    simp only [List.flatMap_nil, List.nil_append, List.length_drop] at hlen
    omega
  | cons c cs =>
    have hencode : encode text = encodeChar c ++ cs.flatMap encodeChar := by
      rw [encode, htext, List.flatMap_cons]
    have hread : i.readChar = (.ok c, i.advance (encodeChar c).length) := by
      refine readChar_of_encoding ?_
      rw [h, hencode, List.append_assoc]
      exact List.prefix_append _ _
    refine ⟨c, ?_, by rw [hread]⟩
    have hlen := congrArg List.length h
    rw [hencode, hread, advance] at hlen
    have hnone : cs.flatMap encodeChar = [] := by
      rw [← List.length_eq_zero_iff]
      simp only [List.length_append, List.length_drop] at hlen
      omega
    cases cs with
    | nil => rfl
    | cons d ds =>
      obtain ⟨b, rest, hd, -⟩ := exists_cons_encodeChar d
      rw [List.flatMap_cons, hd] at hnone
      cases hnone

end Input

/-- **Characters are read from exactly their encodings.**  The end of the input is reported
iff there is nothing left, and a character iff its encoding comes first.  No longer form of
a number is read, and neither is one that is no code point.  If the bytes that are consumed
spell a text, then it is the one character that is read. -/
theorem readChar_exact (i : Input) :
    (∀ result j, i.readChar = (result, j) ↔ ∃ n, i.ReadsCharacter result n ∧ j = i.advance n) ∧
    (i.readChar.1 = .error .inputExhausted ↔ i.bytes = [] ∧ i.ending = .closed) ∧
    (∀ c, i.readChar.1 = .ok c ↔ encodeChar c <+: i.bytes) ∧
    (∀ n v, 1 ≤ n ∧ n ≤ 3 → v < 2 ^ (5 * n + 6) →
      (¬ v.isValidChar ∨ (encodeChar (Char.ofNat v)).length ≠ n + 1) → padded n v <+: i.bytes →
      i.readChar = (.error (.stream .notUtf8), i.advance (n + 1))) ∧
    ∀ text, i.bytes ≠ [] → i.bytes = encode text ++ i.readChar.2.bytes →
      ∃ c, text.toList = [c] ∧ i.readChar.1 = .ok c := by
  refine ⟨fun _ _ => Input.ReadsCharacter.readChar_eq_iff, Input.readChar_eq_exhausted_iff,
    fun _ => Input.readChar_eq_ok_iff, ?_, fun _ => Input.readChar_of_consumed_text⟩
  intro n v hn hv hnone h
  exact Input.readChar_of_padded hn hv hnone h

-- a surrogate, and what is left behind it
example : (Input.ofBytes [0xED, 0xA0, 0x80, 0x41]).readChar =
    (.error (.stream .notUtf8), ⟨[0x41], .closed, 3⟩) := rfl

end Whitespace

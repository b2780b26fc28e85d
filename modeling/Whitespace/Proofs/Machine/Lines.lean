import Mathlib.Algebra.Group.Int.Defs
import Mathlib.Data.List.DropRight
import Whitespace.Proofs.Machine.Input
import Whitespace.Proofs.Text.Decimal

/-!
# Lines that are numbers

A number is read from the first line of the input, which goes through the first line feed
or, if there is none, through the end (`Input.FirstLine`).  Its text is the line without
the carriage returns and line feeds behind it (`Stripped`); they may as well be taken off
the decoded text, since each of them is decoded alone (`Input.stripped_decodeLossy`).

`Input.readNum_exact` says which lines are numbers, what else comes of a line that is over,
and that the whole line is consumed either way.
-/

namespace Whitespace

open Utf8

/-- A list without the longest part at its end that has a property throughout. -/
structure Stripped {α : Type} (P : α → Prop) (l text : List α) : Prop where
  exists_end : ∃ ends, l = text ++ ends ∧ ∀ x ∈ ends, P x
  last : ∀ x ∈ text.getLast?, ¬ P x

namespace Stripped

variable {α : Type} {P : α → Prop} {p : α → Bool} {l text : List α}

theorem rdropWhile (hp : ∀ x, p x = true ↔ P x) (l : List α) : Stripped P l (l.rdropWhile p) where
  exists_end := by
    refine ⟨l.rtakeWhile p, List.rdropWhile_append_rtakeWhile.symm, fun x hx => ?_⟩
    exact (hp x).1 (List.mem_rtakeWhile_imp hx)
  last := by
    intro x hx hP
    obtain ⟨hne, rfl⟩ := List.mem_getLast?_eq_getLast hx
    exact List.rdropWhile_last_not p l hne ((hp _).2 hP)

/-- There is one way to take the end off. -/
theorem eq_rdropWhile (hp : ∀ x, p x = true ↔ P x) (h : Stripped P l text) :
    text = l.rdropWhile p := by
  obtain ⟨ends, rfl, hends⟩ := h.exists_end
  have hdrop : (text ++ ends).rdropWhile p = text.rdropWhile p := by
    clear h
    induction ends using List.reverseRecOn with
    | nil => rw [List.append_nil]
    | append_singleton ends x ih =>
      rw [← List.append_assoc, List.rdropWhile_concat_pos p _ x ((hp x).2 (hends x (by simp)))]
      exact ih fun x hx => hends x (List.mem_append_left _ hx)
  rw [hdrop, List.rdropWhile_eq_self_iff.2]
  intro hne hlast
  exact h.last _ (List.getLast?_eq_some_getLast hne) ((hp _).1 hlast)

theorem eq_nil (h : Stripped P l text) (hl : ∀ x ∈ l, P x) : text = [] := by
  obtain ⟨ends, rfl, -⟩ := h.exists_end
  by_contra hne
  have hmem := List.getLast_mem hne
  exact h.last _ (List.getLast?_eq_some_getLast hne) (hl _ (List.mem_append_left _ hmem))

end Stripped

namespace Input

/-- The bytes that a line ends with. -/
def EndsLine (b : UInt8) : Prop := b = 0x0D ∨ b = 0x0A

/-- The first line of some bytes, through its line feed or through the last byte. -/
inductive FirstLine : List UInt8 → List UInt8 → Prop
  | fed {body rest : List UInt8} (h : 0x0A ∉ body) :
      FirstLine (body ++ 0x0A :: rest) (body ++ [0x0A])
  | unfed {bytes : List UInt8} (h : 0x0A ∉ bytes) : FirstLine bytes bytes

variable {bytes text : List UInt8}

theorem FirstLine.eq_line {l : List UInt8} (h : FirstLine bytes l) : l = line bytes := by
  cases h with
  | fed h =>
    rw [line_append_of_notMem h]
    rfl
  | unfed h =>
    have hline := line_append_of_notMem h []
    rw [List.append_nil] at hline
    exact hline.symm ▸ (List.append_nil bytes).symm

theorem firstLine_line (bytes : List UInt8) : FirstLine bytes (line bytes) := by
  by_cases h : 0x0A ∈ bytes
  · obtain ⟨body, rest, rfl, hbody⟩ := List.eq_append_cons_of_mem h
    have hfirst : FirstLine (body ++ 0x0A :: rest) (body ++ [0x0A]) := .fed hbody
    exact hfirst.eq_line ▸ hfirst
  · have hfirst : FirstLine bytes bytes := .unfed h
    exact hfirst.eq_line ▸ hfirst

theorem endsLine_iff (b : UInt8) : (b = 0x0D || b = 0x0A) = true ↔ EndsLine b := by
  rw [EndsLine, Bool.or_eq_true, decide_eq_true_eq, decide_eq_true_eq]

theorem stripped_trimLine (l : List UInt8) : Stripped EndsLine l (trimLine l) :=
  .rdropWhile endsLine_iff l

theorem eq_trimLine {l : List UInt8} (h : Stripped EndsLine l text) : text = trimLine l :=
  h.eq_rdropWhile endsLine_iff

/-! ## The text of a line -/

theorem lt_of_endsLine {b : UInt8} (h : EndsLine b) : b < 0x80 := by
  rcases h with rfl | rfl <;> decide

theorem ofNat_eq_iff {b : UInt8} (hb : b < 0x80) {c : Char} :
    Char.ofNat b.toNat = c ↔ b.toNat = c.toNat := by
  have hvalid : b.toNat.isValidChar := .inl (Nat.lt_trans (UInt8.lt_iff_toNat_lt.1 hb) (by decide))
  constructor
  · rintro rfl
    exact (toNat_ofNat_of_valid hvalid).symm
  · intro h
    rw [h, Char.ofNat_toNat]

/-- **Line ends may be taken off before or after decoding.** -/
theorem stripped_decodeLossy {l : List UInt8} (h : Stripped EndsLine l text) :
    Stripped (fun c => c = '\r' ∨ c = '\n') (decodeLossy l).toList (decodeLossy text).toList where
  exists_end := by
    obtain ⟨ends, rfl, hends⟩ := h.exists_end
    refine ⟨_, toList_decodeLossy_append (fun b hb => lt_of_endsLine (hends b hb)) text, ?_⟩
    intro c hc
    obtain ⟨b, hb, rfl⟩ := List.mem_map.1 hc
    rcases hends b hb with rfl | rfl
    · exact .inl rfl
    · exact .inr rfl
  last := by
    intro c hc
    rcases List.eq_nil_or_concat text with rfl | ⟨front, b, rfl⟩
    · cases hc
    have hb : ¬ EndsLine b := by
      refine h.last b ?_
      rw [List.concat_eq_append, List.getLast?_concat]
      rfl
    rw [List.concat_eq_append] at hc
    by_cases hlt : b < 0x80
    · rw [decodeLossy_concat_of_lt hlt, String.toList_push, List.getLast?_concat] at hc
      cases hc
      rw [ofNat_eq_iff hlt, ofNat_eq_iff hlt]
      exact fun hends => hb (hends.imp UInt8.toNat_inj.1 UInt8.toNat_inj.1)
    · obtain ⟨cs, last, hlast, hle⟩ := exists_decodeLossy_concat_of_le (UInt8.not_lt.1 hlt) front
      rw [hlast, List.getLast?_concat] at hc
      cases hc
      rintro (rfl | rfl)
      · exact absurd hle (by decide)
      · exact absurd hle (by decide)

/-- A line that is a number is the encoding of its text. -/
theorem exists_eq_encode {l : List UInt8} {k : Int} (h : Stripped EndsLine l text)
    (htext : Decimal.Signed text k) : ∃ s, l = encode s := by
  obtain ⟨ends, rfl, hends⟩ := h.exists_end
  refine ⟨_, eq_encode_of_decodeLossy fun c hc => ?_⟩
  rw [toList_decodeLossy_append fun b hb => lt_of_endsLine (hends b hb)] at hc
  rcases List.mem_append.1 hc with hc | hc
  · rintro rfl
    exact absurd (htext.toNat_lt_of_mem_decodeLossy hc) (by decide)
  · obtain ⟨b, hb, rfl⟩ := List.mem_map.1 hc
    rcases hends b hb with rfl | rfl <;> decide

/-! ## Lines that are over -/

variable {i : Input} {l : List UInt8}

theorem readNum_of_firstLine (hover : 0x0A ∈ i.bytes ∨ i.ending = .closed)
    (hline : FirstLine i.bytes l) (htext : Stripped EndsLine l text) :
    i.readNum =
      ((Decimal.toInt64? (decodeLossy text).toList).elim (.error (.notANumber (decodeLossy text)))
          .ok,
        i.advance l.length) := by
  rw [hline.eq_line, eq_trimLine htext, hline.eq_line, readNum_of_over hover]

theorem readNum_of_signed (hover : 0x0A ∈ i.bytes ∨ i.ending = .closed)
    (hline : FirstLine i.bytes l) (htext : Stripped EndsLine l text) {n : Int64}
    (hn : Decimal.Signed text n.toInt) : i.readNum = (.ok n, i.advance l.length) := by
  rw [readNum_of_firstLine hover hline htext, Decimal.toInt64?_decodeLossy_eq_some_iff.2 hn]
  rfl

/-- **A line that is over is a number iff its text is signed decimal digits in the 64-bit
range.**  Any other is refused with its lossy text.  The whole line is consumed, and nothing
behind it. -/
theorem readNum_exact (hover : 0x0A ∈ i.bytes ∨ i.ending = .closed) :
    (∃ l text, FirstLine i.bytes l ∧ Stripped EndsLine l text) ∧
    ∀ l text, FirstLine i.bytes l → Stripped EndsLine l text →
      i.readNum.2 = i.advance l.length ∧
      (∀ n, i.readNum.1 = .ok n ↔ Decimal.Signed text n.toInt) ∧
      ((∀ k, Decimal.Signed text k → ¬ (-2 ^ 63 ≤ k ∧ k ≤ 2 ^ 63 - 1)) →
        i.readNum.1 = .error (.notANumber (decodeLossy text))) ∧
      Stripped (fun c => c = '\r' ∨ c = '\n') (decodeLossy l).toList (decodeLossy text).toList ∧
      ((∃ n, i.readNum.1 = .ok n) → ∃ s, l = encode s) ∧
      ((∀ b ∈ l, EndsLine b) → i.readNum.1 = .error (.notANumber "")) := by
  refine ⟨⟨_, _, firstLine_line i.bytes, stripped_trimLine _⟩, ?_⟩
  intro l text hline htext
  rw [readNum_of_firstLine hover hline htext]
  have hok : ∀ n, (Decimal.toInt64? (decodeLossy text).toList).elim
      (.error (Fault.notANumber (decodeLossy text))) Except.ok = Except.ok n ↔
        Decimal.Signed text n.toInt := by
    intro n
    rw [← Decimal.toInt64?_decodeLossy_eq_some_iff]
    cases Decimal.toInt64? (decodeLossy text).toList <;> simp
  refine ⟨rfl, hok, ?_, stripped_decodeLossy htext, ?_, ?_⟩
  · intro hnone
    cases h : Decimal.toInt64? (decodeLossy text).toList with
    | none => rfl
    | some n =>
      have hn := Decimal.toInt64?_decodeLossy_eq_some_iff.1 h
      exact absurd ⟨n.minValue_le_toInt, n.toInt_le⟩ (hnone _ hn)
  · rintro ⟨n, hn⟩
    exact exists_eq_encode htext ((hok n).1 hn)
  · intro hends
    rw [htext.eq_nil hends]
    rfl

/-- A sign, leading zeros, both line ends, and a byte that is left for the next read. -/
theorem readNum_signed_line :
    (ofBytes [0x2D, 0x30, 0x34, 0x32, 0x0D, 0x0A, 0xFF]).readNum =
      (.ok (-42), ⟨[0xFF], .closed, 6⟩) := by
  have hline : FirstLine [0x2D, 0x30, 0x34, 0x32, 0x0D, 0x0A, 0xFF]
      [0x2D, 0x30, 0x34, 0x32, 0x0D, 0x0A] :=
    @FirstLine.fed [0x2D, 0x30, 0x34, 0x32, 0x0D] [0xFF] (by decide)
  have htext : Stripped EndsLine [0x2D, 0x30, 0x34, 0x32, 0x0D, 0x0A] [0x2D, 0x30, 0x34, 0x32] := by
    refine ⟨⟨[0x0D, 0x0A], rfl, ?_⟩, ?_⟩ <;> simp [EndsLine]
  have hdigits : Decimal.Digits [0x30, 0x34, 0x32] 42 :=
    .concat (.concat (.single (d := 0) (by decide)) (d := 4) (by decide)) (d := 2) (by decide)
  have hover : 0x0A ∈ (ofBytes [0x2D, 0x30, 0x34, 0x32, 0x0D, 0x0A, 0xFF]).bytes := by decide
  obtain ⟨hleft, hok, -⟩ := (readNum_exact (.inl hover)).2 _ _ hline htext
  exact Prod.ext ((hok (-42)).2 (.minus hdigits)) hleft

-- a byte that is no character is not dropped either
example : (ofBytes [0x31, 0xFF, 0x0D]).readNum =
    (.error (.notANumber "1\uFFFD"), ⟨[], .closed, 3⟩) := by
  rfl

end Input

end Whitespace

import Mathlib.Data.List.Chain
import Whitespace.Json.Text
import Whitespace.Proofs.Json.Number
import Whitespace.Proofs.Json.Quoted

/-!
# Laid out tokens are read back

Between two tokens stand blanks or nothing.  Nothing is enough: every token shows
by itself where it ends, but for an integer, which would go on with the digits of
another.  So a sequence of tokens is legible if its integers have room in 64 bits
and no two of them are neighbours, and a legible sequence is read back from the
text that it is laid out as (`lex_pretty`).
-/

namespace Whitespace.Json

namespace Token

def isInteger : Token → Bool
  | integer _ => true
  | _ => false

/-- An integer is read as such if it has room in 64 bits, with or without sign. -/
def Fits : Token → Prop
  | integer n => Int64.minValue.toInt ≤ n ∧ n < UInt64.size
  | _ => True

end Token

/-! ## One token -/

theorem lexOne_digit {c : Char} (h : c.isDigit = true) (rest : List Char) :
    lexOne c rest = lexNumber false (c :: rest) := by
  unfold lexOne
  split
  case h_12 => rw [if_pos h]
  all_goals exact absurd h (by decide)

theorem isBlank_digit {c : Char} (h : c.isDigit = true) : isBlank c = false := by
  simp only [isBlank, Bool.or_eq_false_iff, decide_eq_false_iff_not]
  refine ⟨⟨⟨?_, ?_⟩, ?_⟩, ?_⟩ <;> rintro rfl <;> exact absurd h (by decide)

theorem lexOne_integer {n : Int} {rest : List Char} (hfits : (Token.integer n).Fits)
    (hrest : NumberEnds rest) :
    ∃ c cs, Decimal.ofInt n = c :: cs ∧ isBlank c = false ∧
      lexOne c (cs ++ rest) = .ok (.token (.integer n), rest) := by
  obtain ⟨hlow, hhigh⟩ := hfits
  have hmin : Int64.minValue.toInt = -2 ^ 63 := Int64.toInt_minValue
  have hsize : n.natAbs < UInt64.size := by
    have : UInt64.size = 2 ^ 64 := rfl
    omega
  unfold Decimal.ofInt
  split
  · next hn =>
    have hvalue : -(n.natAbs : Int) = n := by omega
    have hnumber : lexNumber true (Decimal.ofNat n.natAbs ++ rest) = _ :=
      lexNumber_ofNat hsize (fun _ => ⟨by omega, by omega⟩) hrest
    rw [if_pos rfl, hvalue] at hnumber
    exact ⟨'-', _, rfl, by decide, hnumber⟩
  · next hn =>
    have hvalue : (n.natAbs : Int) = n := by omega
    have hnumber : lexNumber false (Decimal.ofNat n.natAbs ++ rest) = _ :=
      lexNumber_ofNat hsize (by simp) hrest
    rw [if_neg Bool.false_ne_true, hvalue] at hnumber
    have hdigits : ∀ c ∈ Decimal.ofNat n.natAbs, c.isDigit = true :=
      fun _ => Decimal.isDigit_of_mem_ofNat
    obtain ⟨c, cs, hcs⟩ := List.exists_cons_of_ne_nil (l := Decimal.ofNat n.natAbs)
      Nat.toDigits_ne_nil
    rw [hcs] at hnumber hdigits ⊢
    have hc : c.isDigit = true := hdigits c (by simp)
    refine ⟨c, cs, rfl, isBlank_digit hc, ?_⟩
    rw [lexOne_digit hc]
    exact hnumber

/-- **A written token** is read back from its first character on, which is no
blank. -/
theorem lexOne_text {t : Token} {rest : List Char} (hfits : t.Fits)
    (hrest : t.isInteger → NumberEnds rest) :
    ∃ c cs, t.text = c :: cs ∧ isBlank c = false ∧
      lexOne c (cs ++ rest) = .ok (.token t, rest) := by
  cases t with
  | integer n => exact lexOne_integer hfits (hrest rfl)
  | string text =>
    refine ⟨'\x22', text.toList.flatMap escapeChar ++ ['\x22'], rfl, by decide, ?_⟩
    rw [List.append_assoc]
    exact lexString_escaped text rest
  | bool b => cases b <;> exact ⟨_, _, rfl, by decide, by simp [lexOne, lexWord]⟩
  | null => exact ⟨_, _, rfl, by decide, by simp [lexOne, lexWord]⟩
  | _ => exact ⟨_, _, rfl, by decide, rfl⟩

/-! ## Tokens and blanks in a row -/

theorem lex_go_blanks {blanks : List Char} (h : ∀ c ∈ blanks, isBlank c = true)
    (found : Array Lexeme) (rest : List Char) :
    lex.go found (blanks ++ rest) = lex.go found rest := by
  induction blanks with
  | nil => rfl
  | cons c blanks ih =>
    rw [List.cons_append, lex.go, if_pos (h c (by simp))]
    exact ih fun d hd => h d (List.mem_cons_of_mem c hd)

theorem lex_go_text {t : Token} {rest : List Char} (hfits : t.Fits)
    (hrest : t.isInteger → NumberEnds rest) (found : Array Lexeme) :
    lex.go found (t.text ++ rest) = lex.go (found.push (.token t)) rest := by
  obtain ⟨c, cs, htext, hblank, hone⟩ := lexOne_text hfits hrest
  rw [htext, List.cons_append, lex.go]
  simp only [hblank, Bool.false_eq_true, if_false]
  split
  · next h =>
    rw [hone] at h
    cases h
    rfl
  · next h => simp [hone] at h

/-! ## Layouts -/

theorem isBlank_of_mem_newline {depth : Nat} {c : Char} (h : c ∈ newline depth) :
    isBlank c = true := by
  simp only [newline, List.mem_cons, List.mem_replicate] at h
  rcases h with rfl | ⟨-, rfl⟩ <;> decide

theorem isBlank_of_mem_gap {depth : Nat} {t u : Token} {c : Char} (h : c ∈ gap depth t u) :
    isBlank c = true := by
  unfold gap at h
  split at h
  · split at h
    · cases h
    · exact isBlank_of_mem_newline h
  split at h
  · exact isBlank_of_mem_newline h
  split at h
  · exact isBlank_of_mem_newline h
  · obtain rfl := List.mem_singleton.1 h
    decide
  · cases h

/-- The characters of tokens that are laid out from a depth on. -/
def laidOut (depth : Nat) (tokens : List Token) : List Char := (pretty.go #[] depth tokens).toList

theorem toList_pretty_go (tokens : List Token) (written : Array Char) (depth : Nat) :
    (pretty.go written depth tokens).toList = written.toList ++ laidOut depth tokens := by
  unfold laidOut
  induction tokens generalizing written depth with
  | nil => simp [pretty.go]
  | cons t tokens ih =>
    cases tokens with
    | nil => simp [pretty.go]
    | cons u tokens =>
      rw [pretty.go, pretty.go, ih, ih (#[] ++ t.text ++ _)]
      simp

theorem laidOut_nil (depth : Nat) : laidOut depth [] = [] := rfl

theorem laidOut_singleton (depth : Nat) (t : Token) : laidOut depth [t] = t.text := by
  simp [laidOut, pretty.go]

theorem laidOut_cons_cons (depth : Nat) (t u : Token) (rest : List Token) :
    laidOut depth (t :: u :: rest) = t.text ++
      (gap (t.depthAfter depth) t u ++ laidOut (t.depthAfter depth) (u :: rest)) := by
  rw [laidOut, pretty.go, toList_pretty_go]
  simp

theorem numberEnds_newline (depth : Nat) (rest : List Char) :
    NumberEnds (newline depth ++ rest) := by
  intro c hc
  obtain rfl : '\n' = c := by simpa [newline] using hc
  decide

/-- Behind an integer stands a new line or a token that is no integer. -/
theorem numberEnds_gap {t u : Token} (ht : t.isInteger) (hu : ¬ u.isInteger) (depth : Nat)
    (rest : List Char) : NumberEnds (gap depth t u ++ (u.text ++ rest)) := by
  obtain ⟨n, rfl⟩ : ∃ n, t = .integer n := by
    cases t with
    | integer n => exact ⟨n, rfl⟩
    | _ => cases ht
  cases u with
  | integer m => exact absurd rfl hu
  | closeBrace => exact numberEnds_newline _ _
  | closeBracket => exact numberEnds_newline _ _
  | bool b =>
    intro c hc
    cases b <;> cases hc <;> decide
  | _ =>
    intro c hc
    cases hc
    decide

theorem exists_laidOut_cons (depth : Nat) (t : Token) (tokens : List Token) :
    ∃ rest, laidOut depth (t :: tokens) = t.text ++ rest := by
  cases tokens with
  | nil => exact ⟨[], by rw [laidOut_singleton, List.append_nil]⟩
  | cons u tokens => exact ⟨_, laidOut_cons_cons depth t u tokens⟩

theorem lex_go_laidOut {tokens : List Token} (hfits : ∀ t ∈ tokens, t.Fits)
    (hapart : tokens.IsChain fun t u => ¬ (t.isInteger ∧ u.isInteger)) (depth : Nat)
    (found : Array Lexeme) :
    lex.go found (laidOut depth tokens) = found.toList ++ tokens.map .token := by
  induction tokens generalizing depth found with
  | nil => simp [laidOut_nil, lex.go]
  | cons t tokens ih =>
    have ht : t.Fits := hfits t (by simp)
    cases tokens with
    | nil =>
      have hends : NumberEnds [] := by
        intro c hc
        cases hc
      rw [laidOut_singleton, ← List.append_nil t.text, lex_go_text ht (fun _ => hends), lex.go]
      simp
    | cons u tokens =>
      obtain ⟨htu, hchain⟩ := List.isChain_cons_cons.1 hapart
      -- an integer is followed by a new line or by a token that is none
      have hends : t.isInteger → NumberEnds
          (gap (t.depthAfter depth) t u ++ laidOut (t.depthAfter depth) (u :: tokens)) := by
        intro hinteger
        obtain ⟨rest, hrest⟩ := exists_laidOut_cons (t.depthAfter depth) u tokens
        rw [hrest]
        exact numberEnds_gap hinteger (fun hu => htu ⟨hinteger, hu⟩) _ rest
      rw [laidOut_cons_cons, lex_go_text ht hends,
        lex_go_blanks (fun _ => isBlank_of_mem_gap),
        ih (fun v hv => hfits v (List.mem_cons_of_mem t hv)) hchain]
      simp

/-- A sequence of tokens whose text shows where each of them ends.  It begins with
no integer, so that it may stand behind another. -/
structure Legible (tokens : List Token) : Prop where
  fits : ∀ t ∈ tokens, t.Fits
  apart : tokens.IsChain fun t u => ¬ (t.isInteger ∧ u.isInteger)
  begins : ∀ t ∈ tokens.head?, t.isInteger = false

/-- **The text of tokens** is read back as these tokens. -/
theorem lex_pretty {tokens : List Token} (h : Legible tokens) :
    lex (pretty tokens) = tokens.map .token := by
  have htext : (pretty tokens).toList = laidOut 0 tokens := String.toList_ofList
  rw [lex, htext, lex_go_laidOut h.fits h.apart]
  simp

/-! ## Legible sequences -/

theorem intercalate_comma (block : List Token) (blocks : List (List Token)) :
    [Token.comma].intercalate (block :: blocks) = block ++ blocks.flatMap (.comma :: ·) := by
  induction blocks generalizing block with
  | nil => simp [List.intercalate]
  | cons other blocks ih =>
    have := ih other
    simp only [List.intercalate, List.intersperse_cons_cons, List.flatten_cons] at this ⊢
    simp [this]

namespace Legible

theorem nil : Legible [] where
  fits := by simp
  apart := .nil
  begins := by simp

theorem append {ts us : List Token} (ht : Legible ts) (hu : Legible us) : Legible (ts ++ us) where
  fits t h := (List.mem_append.1 h).elim (ht.fits t) (hu.fits t)
  apart := by
    rw [List.isChain_append]
    refine ⟨ht.apart, hu.apart, ?_⟩
    intro t _ u hmem htu
    exact Bool.false_ne_true ((hu.begins u hmem).symm.trans htu.2)
  begins := by
    intro t h
    rw [List.head?_append] at h
    cases ts with
    | nil => exact hu.begins t h
    | cons s ts => exact ht.begins t h

theorem singleton {t : Token} (ht : t.isInteger = false) : Legible [t] where
  fits := by
    rintro u hu
    obtain rfl := List.mem_singleton.1 hu
    cases u with
    | integer n => cases ht
    | _ => trivial
  apart := .singleton t
  begins := by simpa using ht

theorem cons {t : Token} {ts : List Token} (ht : t.isInteger = false) (h : Legible ts) :
    Legible (t :: ts) :=
  (singleton ht).append h

/-- An integer stands behind a token that is none. -/
theorem cons_integer {t : Token} {n : Int} {ts : List Token} (ht : t.isInteger = false)
    (hn : (Token.integer n).Fits) (h : Legible ts) : Legible (t :: .integer n :: ts) := by
  have hpair : Legible [t, .integer n] := by
    refine ⟨?_, by simp [ht], by simpa using ht⟩
    intro u hu
    rcases List.mem_cons.1 hu with rfl | hu
    · exact (singleton ht).fits u (by simp)
    · obtain rfl := List.mem_singleton.1 hu
      exact hn
  exact hpair.append h

theorem flatten {blocks : List (List Token)} (h : ∀ b ∈ blocks, Legible b) :
    Legible blocks.flatten := by
  induction blocks with
  | nil => exact nil
  | cons b blocks ih =>
    exact (h b (by simp)).append (ih fun c hc => h c (List.mem_cons_of_mem b hc))

theorem intercalate {blocks : List (List Token)} (h : ∀ b ∈ blocks, Legible b) :
    Legible ([Token.comma].intercalate blocks) := by
  cases blocks with
  | nil => exact nil
  | cons b blocks =>
    rw [intercalate_comma]
    apply (h b (by simp)).append
    apply flatten
    intro c hc
    obtain ⟨c, hmem, rfl⟩ := List.mem_map.1 hc
    exact cons rfl (h c (List.mem_cons_of_mem b hmem))

end Legible

end Whitespace.Json

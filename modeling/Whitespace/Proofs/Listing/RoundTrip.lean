import Whitespace.Listing.Printer
import Whitespace.Listing.Reader
import Whitespace.Proofs.Assembly.WellFormed
import Whitespace.Proofs.Json.Reader
import Whitespace.Proofs.Json.Text
import Whitespace.Proofs.Text.Utf8

/-!
# Listings are read back

The listing of a program is read back as the program
(`Program.listing_round_trip`), whatever its labels and numbers are, and whether
or not it is a program that a source assembles to.  It takes two steps: the text
falls apart into the tokens that it was laid out from, and these are read by the
reader of every part of a program as the part that they were written for.
-/

namespace Whitespace

open Json (Legible Reader Token)
open Json.Reader

/-! ## Tokens are read as what they were written for -/

theorem Label.reads (l : Label) : Reads reader [.string l.text] l :=
  (reads_string l.text).map Label.mk

namespace Target

theorem reads_index {n : Nat} (h : n < UInt64.size) : Reads indexReader [.integer n] n := by
  have hhigh : (n : Int) ≤ (UInt64.size - 1 : Nat) := by
    have : UInt64.size = 2 ^ 64 := rfl
    omega
  exact (reads_integer (Int.natCast_nonneg n) hhigh).map Int.toNat

theorem reads_labelField (l : Label) :
    Reads (field (none, none) "label") [.colon, .string l.text] (some l, none) :=
  (reads_once l.reads).map fun l => (l, none)

theorem reads_indexField {n : Nat} (h : n < UInt64.size) (l : Label) :
    Reads (field (some l, none) "index") [.colon, .integer n] (some l, some n) :=
  (reads_once (reads_index h)).map fun n => (some l, n)

theorem reads_record {t : Target} (h : t.index < UInt64.size) :
    Reads (fields field (none, none))
      [.string "label", .colon, .string t.label.text, .comma,
        .string "index", .colon, .integer t.index, .closeBrace]
      (some t.label, some t.index) := by
  apply reads_fields
  intro fuel hfuel
  obtain ⟨fuel, rfl⟩ : ∃ k, fuel = k + 1 + 1 :=
    Nat.exists_eq_add_of_le' (Nat.le_trans (Nat.le_add_left 2 6) hfuel)
  have hlast := reads_lastField (reads_indexField h t.label) fuel
  have hnext := reads_nextField (reads_labelField t.label) hlast
  -- its tokens compute to the list
  exact hnext

theorem reads {t : Target} (h : t.index < UInt64.size) : Reads reader t.tokens t := by
  unfold reader
  apply reads_peek_bind
  apply reads_drop_bind
  exact (reads_record h).bind_nil (.pure t)

end Target

namespace Instruction

variable {τ : Type} {target : Reader τ} {tokens : τ → List Token}

/-- The single field of an object is the operand. -/
theorem reads_single {opcode : Opcode} {ts : List Token} {i : Instruction τ}
    (h : Reads (operandReader target opcode) ts i) :
    Reads (reader target) (Json.single opcode.name ts) i := by
  unfold reader
  apply reads_peek_bind
  apply reads_drop_bind
  apply (reads_key opcode.name).bind
  rw [Opcode.ofName?_name]
  exact (reads_expect .colon).bind (h.bind ((reads_expect .closeBrace).map fun _ => i))

theorem reads_op (o : Operation) : Reads (reader target) [.string (Opcode.op o).name] (.op o) := by
  unfold reader
  apply reads_peek_bind
  apply reads_drop_bind
  rw [Opcode.ofName?_name]
  exact .pure (op o)

/-- **Every instruction** is read back, given that what it carries is. -/
theorem reads {i : Instruction τ} (h : ∀ t ∈ i.target?, Reads target (tokens t) t) :
    Reads (reader target) (i.tokens tokens) i := by
  cases i with
  | push n =>
    apply reads_single
    have hn : Reads (operandReader target .push) [.integer n.toInt] (.push (.ofInt n.toInt)) :=
      (reads_integer n.minValue_le_toInt n.toInt_le).map fun m => push (.ofInt m)
    rwa [Int64.ofInt_toInt] at hn
  | mark l => exact reads_single (l.reads.map mark)
  | branch kind t => exact reads_single ((h t rfl).map (branch kind))
  | op o => exact reads_op o

end Instruction

namespace Program

/-- Every index of a target has room in 64 bits. -/
def IndicesFit (p : Program) : Prop := ∀ t ∈ p.targets, t.index < UInt64.size

instance (p : Program) : Decidable p.IndicesFit := inferInstanceAs (Decidable (∀ _ ∈ _, _))

theorem IndicesFit.instruction {p : Program} (h : p.IndicesFit) {i : Instruction Target}
    (hi : i ∈ p.toList) : ∀ t ∈ i.target?, t.index < UInt64.size :=
  fun t ht => h t (List.mem_filterMap.2 ⟨i, hi, ht⟩)

/-- The tokens of the array of the instructions. -/
def codeTokens (p : Program) : List Token :=
  .openBracket :: ([Token.comma].intercalate (p.toList.map (Instruction.tokens Target.tokens))
    ++ [.closeBracket])

theorem tokens_eq (p : Program) : p.tokens = Json.single "instructions" p.codeTokens := rfl

theorem reads_code {p : Program} (h : p.IndicesFit) : Reads codeReader p.codeTokens p.code := by
  apply reads_array
  · intro i hi
    exact Instruction.reads fun t ht => Target.reads (h.instruction hi t ht)
  · intro i _
    cases i <;> exact ⟨_, _, rfl, by simp⟩

theorem reads_tokens {p : Program} (h : p.IndicesFit) : Reads reader p.tokens p := by
  have hfield : Reads (field none "instructions") (.colon :: p.codeTokens) (some p.code) :=
    reads_once (reads_code h)
  have hfields : Reads (fields field none)
      (.string "instructions" :: (.colon :: p.codeTokens ++ [.closeBrace])) (some p.code) := by
    apply reads_fields
    intro fuel hfuel
    obtain ⟨fuel, rfl⟩ := Nat.exists_eq_add_one_of_ne_zero (Nat.ne_zero_of_lt hfuel)
    exact reads_lastField hfield fuel
  rw [tokens_eq]
  unfold reader
  apply reads_peek_bind
  apply reads_drop_bind
  exact hfields.bind_nil (.pure p)

end Program

/-! ## Texts fall apart into the tokens that they were laid out from -/

theorem legible_single {name : String} {value : List Token} (h : Legible value) :
    Legible (Json.single name value) :=
  .cons rfl (.cons rfl (.cons rfl (h.append (.singleton rfl))))

theorem Target.legible_tokens {t : Target} (h : t.index < UInt64.size) : Legible t.tokens := by
  have hindex : (Token.integer t.index).Fits := by
    have hmin : Int64.minValue.toInt ≤ 0 := by decide
    exact ⟨by omega, by exact_mod_cast h⟩
  exact .cons rfl (.cons rfl (.cons rfl (.cons rfl (.cons rfl (.cons rfl
    (.cons_integer rfl hindex (.singleton rfl)))))))

theorem Instruction.legible_tokens {i : Instruction Target}
    (h : ∀ t ∈ i.target?, t.index < UInt64.size) : Legible (i.tokens Target.tokens) := by
  cases i with
  | push n =>
    have hn : (Token.integer n.toInt).Fits := by
      have hmax : Int64.maxValue.toInt < UInt64.size := by decide
      exact ⟨n.minValue_le_toInt, Int.lt_of_le_of_lt n.toInt_le hmax⟩
    exact .cons rfl (.cons rfl (.cons_integer rfl hn (.singleton rfl)))
  | mark l => exact legible_single (.singleton rfl)
  | branch kind t => exact legible_single (Target.legible_tokens (h t rfl))
  | op o => exact .singleton rfl

namespace Program

theorem legible_codeTokens {p : Program} (h : p.IndicesFit) : Legible p.codeTokens := by
  have hcode : ∀ b ∈ p.toList.map (Instruction.tokens Target.tokens), Legible b := by
    intro b hb
    obtain ⟨i, hi, rfl⟩ := List.mem_map.1 hb
    exact Instruction.legible_tokens (h.instruction hi)
  exact .cons rfl ((Legible.intercalate hcode).append (.singleton rfl))

theorem legible_tokens {p : Program} (h : p.IndicesFit) : Legible p.tokens :=
  legible_single (legible_codeTokens h)

theorem ofListing_listing {p : Program} (h : p.IndicesFit) : ofListing p.listing = .ok p :=
  (reads_tokens h).run (Json.lex_pretty (legible_tokens h))

theorem writeListing_eq {o : Output} (h : o.writeLimit = none) (p : Program) :
    p.writeListing o =
      (.ok (), { o with written := o.written ++ Utf8.encode p.listing }) := by
  obtain ⟨written, flushes, limit, flushLimit⟩ := o
  cases h
  rfl

/-- **The round trip.**  What is written for a program is the encoding of a text
that is read as the program, so different programs are written differently. -/
theorem listing_round_trip {p q : Program} (hp : p.IndicesFit) (hq : q.IndicesFit) {o : Output}
    (ho : o.writeLimit = none) :
    ∃ bytes : List UInt8,
      p.writeListing o = (.ok (), { o with written := o.written ++ bytes }) ∧
      (∃ text, Utf8.decode bytes = .ok text ∧ ofListing text = .ok p) ∧
      (p ≠ q → (p.writeListing o).2.written ≠ (q.writeListing o).2.written) := by
  have hdecode := Utf8.decode_encode p.listing
  have hread := ofListing_listing hp
  refine ⟨Utf8.encode p.listing, writeListing_eq ho p, ⟨p.listing, hdecode, hread⟩, ?_⟩
  intro hne heq
  rw [writeListing_eq ho, writeListing_eq ho] at heq
  have hbytes : Utf8.encode p.listing = Utf8.encode q.listing := by
    have h := congrArg Array.toList heq
    rw [Array.toList_appendList, Array.toList_appendList] at h
    exact List.append_cancel_left h
  -- both texts are what the bytes are decoded as
  have htext : p.listing = q.listing := by
    rw [hbytes, Utf8.decode_encode] at hdecode
    exact (Except.ok.inj hdecode).symm
  apply hne
  rw [htext, ofListing_listing hq] at hread
  exact (Except.ok.inj hread).symm

/-- Numbers at both ends of their ranges, and labels that are written with every
kind of escape, without any, or with nothing at all. -/
def cornerCases (l : Label) : Program :=
  ofList [.mark l, .push Int64.minValue, .push Int64.maxValue,
    .branch .call ⟨⟨"\x22\\/\x08\x0c\n\r\t\x1fé😀"⟩, UInt64.size - 1⟩,
    .branch .jumpIfZero ⟨⟨""⟩, 0⟩, .op (.arith .mod), .op .exit]

theorem cornerCases_round_trip :
    (cornerCases ⟨""⟩).IndicesFit ∧ (cornerCases ⟨"\x00"⟩).IndicesFit ∧
      ∃ bytes : List UInt8,
        (cornerCases ⟨""⟩).writeListing {} = (.ok (), { written := bytes.toArray }) ∧
        (∃ text, Utf8.decode bytes = .ok text ∧ ofListing text = .ok (cornerCases ⟨""⟩)) ∧
        ((cornerCases ⟨""⟩).writeListing {}).2.written ≠
          ((cornerCases ⟨"\x00"⟩).writeListing {}).2.written := by
  have hempty : (cornerCases ⟨""⟩).IndicesFit := by decide
  have hcontrol : (cornerCases ⟨"\x00"⟩).IndicesFit := by decide
  have hne : cornerCases ⟨""⟩ ≠ cornerCases ⟨"\x00"⟩ := by decide
  have hnone : ({} : Output).writeLimit = none := rfl
  obtain ⟨bytes, hwrite, hread, hdiffer⟩ := listing_round_trip hempty hcontrol hnone
  exact ⟨hempty, hcontrol, bytes, by simpa using hwrite, hread, hdiffer hne⟩

end Program

end Whitespace

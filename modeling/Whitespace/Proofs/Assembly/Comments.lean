import Whitespace.Proofs.Assembly.Errors

/-!
# Comments

Decoding looks at the symbols of a source and takes their offsets only to say
where a fault is.  So two sources with the same symbols are decoded into the same
commands and the same labels, and a fault of the one is a fault of the other, at
the same symbol (`Decoding.consume_alike`).  Whatever is assembled, refused or
reported is then the same but for the offset of that symbol
(`comments_transparent`).
-/

namespace Whitespace

open Source

/-! ## Decoding symbols that are located in two ways -/

namespace Decoding

/-- Two decodings that differ in the place of their fault only.  The sources are
`m` and `n` bytes long, and their symbols are `xs` and `ys`. -/
inductive Alike (m n : Nat) (xs ys : List (Symbol × Nat)) : Decoding → Decoding → Prop
  | same {d : Decoding} (h : ∀ e, d.fault = some e → ∃ l, e = .duplicateLabel l) :
      Alike m n xs ys d d
  | refused (d : Decoding) {x : Symbol} {j p q : Nat} (hp : xs[j]? = some (x, p))
      (hq : ys[j]? = some (x, q)) :
      Alike m n xs ys { d with fault := some (.unexpectedSymbol x p) }
        { d with fault := some (.unexpectedSymbol x q) }
  | ended (d : Decoding) :
      Alike m n xs ys { d with fault := some (.unexpectedEnd m) }
        { d with fault := some (.unexpectedEnd n) }

theorem Alike.cons {m n : Nat} {xs ys : List (Symbol × Nat)} {d e : Decoding}
    (h : Alike m n xs ys d e) (x y : Symbol × Nat) : Alike m n (x :: xs) (y :: ys) d e := by
  cases h with
  | same h => exact .same h
  | @refused d s j p q hp hq => exact .refused d (j := j + 1) hp hq
  | ended d => exact .ended d

/-- The only fault of a command that is complete is a second mark. -/
theorem fault_accept_eq {d : Decoding} {c : Command} (hd : d.fault = none) :
    ∀ e, (d.accept c).fault = some e → ∃ l, e = .duplicateLabel l := by
  intro e he
  cases c with
  | mark l =>
    simp only [accept] at he
    split at he
    · cases he
      exact ⟨l, rfl⟩
    · rw [hd] at he
      cases he
  | push _ | branch _ _ | op _ =>
    rw [show (d.accept _).fault = d.fault from rfl, hd] at he
    cases he

/-- **The offsets of symbols decide nothing.**  The fragment and the decoding so
far are the same on both sides, so the two go the same way at every symbol. -/
theorem consume_alike (m n : Nat) {d : Decoding} (f : Fragment) (hd : d.fault = none) :
    ∀ xs ys : List (Symbol × Nat), xs.map Prod.fst = ys.map Prod.fst →
      Alike m n xs ys (d.consume f m xs) (d.consume f n ys) := by
  intro xs
  induction xs generalizing d f with
  | nil =>
    intro ys h
    obtain rfl : ys = [] := List.map_eq_nil_iff.1 h.symm
    rw [consume, consume]
    by_cases hf : f = .empty
    · rw [if_pos hf, if_pos hf]
      exact .same (by simp [hd])
    · rw [if_neg hf, if_neg hf]
      exact .ended d
  | cons x xs ih =>
    intro ys h
    obtain ⟨⟨s, q⟩, ys, rfl, hx, hys⟩ := List.map_eq_cons_iff.1 h.symm
    obtain ⟨_, p⟩ := x
    obtain rfl : s = _ := hx
    simp only [consume]
    cases hs : f.feed s with
    | pending g => exact (ih g hd ys hys.symm).cons _ _
    | refused => exact .refused d (j := 0) rfl rfl
    | complete c =>
      by_cases hstop : (d.accept c.command).fault.isSome ∨ c = .op .exit
      · simp only [if_pos hstop]
        exact .same (fault_accept_eq hd)
      · simp only [if_neg hstop]
        have hnone : (d.accept c.command).fault = none := by
          rw [not_or] at hstop
          simpa using hstop.1
        exact (ih .empty hnone ys hys.symm).cons _ _

end Decoding

/-! ## Sources with the same symbols -/

/-- The same reason to refuse two sources.  An offset stands for the same symbol
in both, or for the end of the source. -/
inductive SameError (s t : List UInt8) : AssemblyError → AssemblyError → Prop
  | unexpectedSymbol {x : Symbol} {j p q : Nat} (hp : SymbolAt s j x p) (hq : SymbolAt t j x q) :
      SameError s t (.unexpectedSymbol x p) (.unexpectedSymbol x q)
  | unexpectedEnd : SameError s t (.unexpectedEnd s.length) (.unexpectedEnd t.length)
  | duplicateLabel (l : Label) : SameError s t (.duplicateLabel l) (.duplicateLabel l)
  | labelNotFound (l : Label) : SameError s t (.labelNotFound l) (.labelNotFound l)

/-- The same program, or the same reason why there is none. -/
inductive SameResult (s t : List UInt8) :
    Except AssemblyError Program → Except AssemblyError Program → Prop
  | program (p : Program) : SameResult s t (.ok p) (.ok p)
  | error {e e' : AssemblyError} (h : SameError s t e e') : SameResult s t (.error e) (.error e')

/-- Two sources that are assembled alike. -/
structure AssembledAlike (s t : List UInt8) : Prop where
  result : SameResult s t (assemble s) (assemble t)
  /-- What decoding reports. -/
  events : (Decoding.ofSource s).events = (Decoding.ofSource t).events

theorem assembledAlike_of_ofSource_eq {s t : List UInt8}
    (h : Decoding.ofSource s = Decoding.ofSource t)
    (hf : ∀ e, (Decoding.ofSource s).fault = some e → ∃ l, e = .duplicateLabel l) :
    AssembledAlike s t := by
  refine ⟨?_, by rw [h]⟩
  have hst : assemble t = assemble s := by rw [assemble, assemble, h]
  rw [hst]
  cases hr : assemble s with
  | ok p => exact .program p
  | error e =>
    refine .error ?_
    cases hfault : (Decoding.ofSource s).fault with
    | none =>
      obtain ⟨l, rfl⟩ := exists_labelNotFound hfault hr
      exact .labelNotFound l
    | some e' =>
      obtain ⟨l, rfl⟩ := hf e' hfault
      rw [assemble, Decoding.program, hfault] at hr
      cases hr
      exact .duplicateLabel l

theorem assembledAlike_of_symbols_eq {s t : List UInt8} (h : symbols s = symbols t) :
    AssembledAlike s t := by
  have hmap : (located 0 s).map Prod.fst = (located 0 t).map Prod.fst := by simpa using h
  have halike := Decoding.consume_alike (d := {}) s.length t.length .empty rfl _ _ hmap
  rw [← Decoding.ofSource_eq_consume, ← Decoding.ofSource_eq_consume] at halike
  generalize hs : Decoding.ofSource s = ds at halike
  generalize ht : Decoding.ofSource t = dt at halike
  cases halike with
  | same hd => exact assembledAlike_of_ofSource_eq (hs.trans ht.symm) (hs ▸ hd)
  | @refused d x j p q hp hq =>
    refine ⟨?_, by rw [hs, ht]; rfl⟩
    rw [assemble, assemble, hs, ht]
    exact .error (.unexpectedSymbol (symbolAt_of_located hp) (symbolAt_of_located hq))
  | ended d =>
    refine ⟨?_, by rw [hs, ht]; rfl⟩
    rw [assemble, assemble, hs, ht]
    exact .error .unexpectedEnd

theorem symbols_translate (text : String) :
    symbols (Mnemonic.translate text) = Mnemonic.symbols text :=
  symbols_ofSymbols _

/-- **Comments are transparent.**  Sources with the same symbols are assembled
alike, and so is a source that is written in letters. -/
theorem comments_transparent {s t : List UInt8} (h : symbols s = symbols t) :
    AssembledAlike s t ∧
      ∀ text, Mnemonic.symbols text = symbols t → AssembledAlike (Mnemonic.translate text) t := by
  refine ⟨assembledAlike_of_symbols_eq h, ?_⟩
  intro text htext
  apply assembledAlike_of_symbols_eq
  rw [symbols_translate, htext]

namespace Refusal

/-- A discard, and a Tab that no command goes on with. -/
def bare : List UInt8 := ofSymbols [.space, .lf, .lf, .space, .tab]

/-- The same among the bytes of `-`, `x`, `y` and `z`. -/
def commented : List UInt8 := [0x2D, 0x20, 0x0A, 0x0A, 0x78, 0x20, 0x79, 0x09, 0x7A]

/-- The Tab is refused in both sources, three bytes later in the one with comments. -/
theorem alike : symbols commented = symbols bare ∧
    AssembledAlike commented bare ∧
    AssembledAlike (Mnemonic.translate "discard SLL, then ST") bare ∧
    assemble commented = .error (.unexpectedSymbol .tab 7) ∧
    assemble bare = .error (.unexpectedSymbol .tab 4) := by
  have hsymbols : symbols commented = symbols bare := by decide
  obtain ⟨halike, htext⟩ := comments_transparent hsymbols
  exact ⟨hsymbols, halike, htext _ (by decide), rfl, rfl⟩

end Refusal

end Whitespace

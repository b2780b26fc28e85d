import Whitespace.Proofs.Assembly.Errors

/-!
# Syntax errors

A source breaks off if its symbols are commands that decoding passes and then some, but
not all, of the symbols of one more (`Source.BreaksOff`).  A symbol is unexpected iff what
stands before it breaks off and no command goes on with it, and the end is unexpected iff
the whole source breaks off.  So what stands behind an unexpected symbol does not matter,
and a source with an unexpected end can be completed (`syntax_errors_exact`).
-/

namespace Whitespace

open Spelling (Begun)

namespace Source

/-- Symbols that break off inside of a command, of which there is `q`. -/
structure BreaksOff (w : List Symbol) (cs : List Spelling) (q : List Symbol) : Prop where
  passed : Passed cs
  eq_append : w = cs.flatMap Spelling.symbols ++ q
  ne_nil : q ≠ []
  begun : Begun q

end Source

open Source

theorem Spelled.singleton (c : Spelling) : Spelled [c] c.symbols := by
  rw [← List.append_nil c.symbols]
  by_cases hc : c = .op .exit
  · subst hc
    exact .exit []
  · exact .cons hc .nil

section

variable {source : List UInt8} {cs : List Spelling} {q : List Symbol} {x : Symbol} {p n : Nat}

theorem assemble_eq_unexpectedSymbol_iff :
    assemble source = .error (.unexpectedSymbol x p) ↔ source[p]? = some x.toByte ∧
      ∃ cs q, BreaksOff (symbols (source.take p)) cs q ∧
        ∀ c : Spelling, ¬ q ++ [x] <+: c.symbols := by
  refine (assemble_eq_error_iff_stopsBehind (by simp)).trans ?_
  constructor
  · rintro ⟨cs, hcs, ys, rest, hsplit, hys, hstops⟩
    cases hstops with
    | @refused us vs _ _ hne hbegun hx =>
      rw [← List.append_assoc] at hsplit
      obtain ⟨hbyte, hsymbols⟩ := exists_located_eq_iff.1 ⟨ys ++ us, vs, hsplit, rfl⟩
      rw [List.map_append, hys] at hsymbols
      exact ⟨hbyte, cs, us.map Prod.fst, ⟨hcs, hsymbols, hne, hbegun⟩, hx⟩
  · rintro ⟨hbyte, cs, q, ⟨hcs, hsymbols, hne, hbegun⟩, hx⟩
    obtain ⟨zs, vs, hsplit, hzs⟩ := exists_located_eq_iff.2 ⟨hbyte, hsymbols⟩
    obtain ⟨ys, us, rfl, hys, rfl⟩ := List.map_eq_append_iff.1 hzs
    rw [List.append_assoc] at hsplit
    exact ⟨cs, hcs, ys, _, hsplit, hys, .refused hne hbegun hx⟩

theorem assemble_eq_unexpectedEnd_iff :
    assemble source = .error (.unexpectedEnd n) ↔
      n = source.length ∧ ∃ cs q, BreaksOff (symbols source) cs q := by
  refine (assemble_eq_error_iff_stopsBehind (by simp)).trans ?_
  rw [← map_fst_located 0]
  constructor
  · rintro ⟨cs, hcs, ys, rest, hsplit, hys, hstops⟩
    cases hstops with
    | brokenOff hne hbegun =>
      refine ⟨rfl, cs, rest.map Prod.fst, hcs, ?_, hne, hbegun⟩
      rw [hsplit, List.map_append, hys]
  · rintro ⟨rfl, cs, q, hcs, hsymbols, hne, hbegun⟩
    obtain ⟨ys, us, hsplit, hys, rfl⟩ := List.map_eq_append_iff.1 hsymbols
    exact ⟨cs, hcs, ys, us, hsplit, hys, .brokenOff hne hbegun⟩

/-- What stands behind an unexpected symbol does not matter. -/
theorem assemble_eq_unexpectedSymbol_of_take {t : List UInt8}
    (h : assemble source = .error (.unexpectedSymbol x p))
    (ht : t.take (p + 1) = source.take (p + 1)) :
    assemble t = .error (.unexpectedSymbol x p) := by
  obtain ⟨hbyte, hbreak⟩ := assemble_eq_unexpectedSymbol_iff.1 h
  have htake : t.take p = source.take p := by
    have hle : min p (p + 1) = p := Nat.min_eq_left (Nat.le_succ p)
    rw [← hle, ← List.take_take, ht, List.take_take]
  refine assemble_eq_unexpectedSymbol_iff.2 ⟨?_, htake ▸ hbreak⟩
  rw [← List.getElem?_take_of_lt (Nat.lt_succ_self p), ht,
    List.getElem?_take_of_lt (Nat.lt_succ_self p), hbyte]

/-- The command that a source breaks off in can be completed, with a label of its own if it
is a mark. -/
theorem Source.BreaksOff.exists_spells_append (h : BreaksOff (symbols source) cs q) :
    ∃ t ds, Spells (source ++ t) ds := by
  obtain ⟨c, w, hc, hfresh⟩ := h.begun.exists_symbols (Script.ofSpellings cs).marks
  refine ⟨ofSymbols w, cs ++ [c], spells_iff.2 ⟨?_, ?_⟩⟩
  · rw [Script.ofSpellings_append]
    exact Script.nodup_marks_concat_iff.2 ⟨h.passed.nodup, hfresh⟩
  · rw [symbols_append, symbols_ofSymbols, h.eq_append, List.append_assoc, ← hc]
    exact .append h.passed.notMem (.singleton c)

theorem Spells.assemble_eq_ok_or (h : Spells source cs) :
    (∃ p, assemble source = .ok p) ∨ ∃ l, assemble source = .error (.labelNotFound l) := by
  rw [h.assemble_eq]
  split
  · exact .inr ⟨_, rfl⟩
  · exact .inl ⟨_, rfl⟩

end

/-- **Syntax errors are exact.**  A symbol is unexpected iff what stands before it breaks
off in a command that does not go on so, and the end is unexpected iff the source breaks
off.  The error is determined with its symbol, and without one the source can be
completed. -/
theorem syntax_errors_exact (s : List UInt8) :
    (∀ x p, assemble s = .error (.unexpectedSymbol x p) ↔ s[p]? = some x.toByte ∧
      ∃ cs q, BreaksOff (symbols (s.take p)) cs q ∧ ∀ c : Spelling, ¬ q ++ [x] <+: c.symbols) ∧
    (∀ n, assemble s = .error (.unexpectedEnd n) ↔
      n = s.length ∧ ∃ cs q, BreaksOff (symbols s) cs q) ∧
    (∀ x p, assemble s = .error (.unexpectedSymbol x p) →
      ∀ t, t.take (p + 1) = s.take (p + 1) → assemble t = .error (.unexpectedSymbol x p)) ∧
    ∀ n, assemble s = .error (.unexpectedEnd n) → ∃ t,
      (∃ p, assemble (s ++ t) = .ok p) ∨ ∃ l, assemble (s ++ t) = .error (.labelNotFound l) := by
  refine ⟨fun x p => assemble_eq_unexpectedSymbol_iff, fun n => assemble_eq_unexpectedEnd_iff,
    fun x p h t => assemble_eq_unexpectedSymbol_of_take h, ?_⟩
  intro n h
  obtain ⟨-, cs, q, hbreak⟩ := assemble_eq_unexpectedEnd_iff.1 h
  obtain ⟨t, ds, hds⟩ := hbreak.exists_spells_append
  exact ⟨t, hds.assemble_eq_ok_or⟩

example : assemble (ofSymbols [.space, .lf, .lf, .lf, .space, .space, .tab]) =
    .error (.unexpectedEnd 7) := rfl

end Whitespace

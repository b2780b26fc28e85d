import Mathlib.Data.Set.Finite.Basic
import Mathlib.Data.Set.Finite.Range
import Whitespace.Proofs.Source.Reading

/-!
# Beginnings of commands

Symbols have begun a command if some command goes on behind them (`Spelling.Begun`).
What has been read is pending iff a command has been begun
(`Fragment.exists_feedAll_eq_pending_iff`), and the next symbol is refused iff no command
begins so (`Fragment.feed_eq_refused_iff`), which is neither late nor early.

A command that has been begun can be completed, and without marking any of some given
labels (`Spelling.Begun.exists_symbols`).
-/

namespace Whitespace

/-- Some command begins with these symbols and has more of them. -/
def Spelling.Begun (q : List Symbol) : Prop :=
  ∃ c w, w ≠ [] ∧ Spelling.symbols c = q ++ w

open Spelling (Begun)

theorem Opcode.exists_symbols (o : Opcode) : ∃ c w, Spelling.symbols c = o.word ++ w := by
  cases o with
  | push => exact ⟨.push ⟨.zero, []⟩, _, rfl⟩
  | label use => exact ⟨.label use [], [.lf], by simp [Spelling.symbols]⟩
  | op o => exact ⟨.op o, [], by simp [Spelling.symbols]⟩

namespace Fragment

variable {f g : Fragment} {q w : List Symbol} {x : Symbol} {c : Spelling}

theorem begun_empty : Begun empty.symbols :=
  ⟨.op .dup, _, Spelling.symbols_ne_nil (.op .dup), rfl⟩

theorem begun_of_begins (h : Opcode.begins q = true) (hne : Opcode.ofWord? q = none) :
    Begun q := by
  obtain ⟨o, v, hv⟩ := Opcode.begins_iff.1 h
  obtain ⟨c, w, hc⟩ := o.exists_symbols
  refine ⟨c, v ++ w, ?_, by rw [hc, ← hv, List.append_assoc]⟩
  intro hnil
  obtain ⟨rfl, -⟩ := List.append_eq_nil_iff.1 hnil
  rw [List.append_nil] at hv
  rw [hv, Opcode.ofWord?_word] at hne
  cases hne

theorem begun_sign : Begun sign.symbols :=
  ⟨.push ⟨.zero, []⟩, [.space, .lf], List.cons_ne_nil _ _, rfl⟩

theorem begun_digits (sg : Bit) (read : List Bit) : Begun (digits sg read).symbols :=
  ⟨.push ⟨sg, read.reverse⟩, [.lf], List.cons_ne_nil _ _,
    by simp [Spelling.symbols, Numeral.symbols, symbols]⟩

theorem begun_label (use : LabelUse) (read : List Bit) : Begun (label use read).symbols :=
  ⟨.label use read.reverse, [.lf], List.cons_ne_nil _ _, by simp [Spelling.symbols, symbols]⟩

theorem begun_of_pending (h : f.feed x = .pending g) : Begun g.symbols := by
  cases f with
  | word read =>
    simp only [feed] at h
    split at h
    · cases h
      exact begun_sign
    · cases h
      exact begun_label _ []
    · cases h
    · next hword =>
      split at h
      · next hbegins =>
        cases h
        exact begun_of_begins hbegins hword
      · cases h
  | sign => cases x <;> cases h <;> exact begun_digits ..
  | digits sg read => cases x <;> cases h <;> exact begun_digits ..
  | label use read => cases x <;> cases h <;> exact begun_label ..

theorem begun_of_feedAll_pending (hf : Begun f.symbols) (h : f.feedAll q = .pending g) :
    Begun g.symbols := by
  induction q generalizing f with
  | nil =>
    cases h
    exact hf
  | cons x q ih =>
    obtain ⟨f', hx, hq⟩ := feedAll_cons_eq_pending h
    exact ih (begun_of_pending hx) hq

/-- A command is pending until its last symbol. -/
theorem exists_feedAll_pending (h : f.feedAll (q ++ w) = .complete c) (hw : w ≠ []) :
    ∃ g, f.feedAll q = .pending g := by
  induction q generalizing f with
  | nil => exact ⟨f, rfl⟩
  | cons x q ih =>
    rcases feedAll_cons_eq_complete h with ⟨f', hx, hq⟩ | ⟨-, hnil⟩
    · rw [feedAll_cons_of_pending hx]
      exact ih hq
    · exact absurd (List.append_eq_nil_iff.1 hnil).2 hw

/-- **Symbols are pending iff they have begun a command.** -/
theorem exists_feedAll_eq_pending_iff : (∃ g, empty.feedAll q = .pending g) ↔ Begun q := by
  constructor
  · rintro ⟨g, h⟩
    have hbegun := begun_of_feedAll_pending begun_empty h
    rwa [symbols_of_feedAll_pending h] at hbegun
  · rintro ⟨c, w, hw, hc⟩
    exact exists_feedAll_pending (hc ▸ feedAll_symbols c) hw

/-- **A symbol is refused iff no command begins so.** -/
theorem feed_eq_refused_iff (h : empty.feedAll q = .pending g) :
    g.feed x = .refused ↔ ∀ c : Spelling, ¬ q ++ [x] <+: c.symbols := by
  have hfeed : empty.feedAll (q ++ [x]) = g.feedAll [x] := feedAll_append h [x]
  constructor
  · rintro hx c ⟨w, hw⟩
    have hc := feedAll_symbols c
    rw [← hw, List.append_assoc, feedAll_append h, List.singleton_append, feedAll, hx] at hc
    cases hc
  · intro hnone
    cases hx : g.feed x with
    | refused => rfl
    | complete c =>
      have hc : empty.feedAll (q ++ [x]) = .complete c := by
        rw [hfeed, feedAll, hx]
        rfl
      rw [feedAll_eq_complete_iff] at hc
      exact absurd (hc ▸ List.prefix_rfl) (hnone c)
    | pending g' =>
      have hg' : empty.feedAll (q ++ [x]) = .pending g' := by
        rw [hfeed, feedAll, hx]
        rfl
      obtain ⟨c, w, -, hc⟩ := exists_feedAll_eq_pending_iff.1 ⟨g', hg'⟩
      exact absurd (hc ▸ List.prefix_append _ w) (hnone c)

/-- Every symbol begins some command. -/
theorem feed_empty_ne_refused (x : Symbol) : empty.feed x ≠ .refused := by
  cases x <;> decide

end Fragment

/-! ## Labels that are not taken -/

/-- Longer and longer words spell different labels, so one of them is new. -/
theorem Label.exists_ofBits_append_notMem (bits : List Bit) (taken : List Label) :
    ∃ more, ofBits (bits ++ more) ∉ taken := by
  have hinjective : Function.Injective fun n => ofBits (bits ++ List.replicate n .one) := by
    intro m n hmn
    have hlen := congrArg List.length (List.append_cancel_left (ofBits_injective hmn))
    simpa using hlen
  obtain ⟨_, ⟨n, rfl⟩, hn⟩ :=
    (Set.infinite_range_of_injective hinjective).exists_notMem_finset taken.toFinset
  exact ⟨List.replicate n .one, by simpa using hn⟩

namespace Spelling.Begun

variable {q : List Symbol}

/-- **A command that has been begun can be completed**, and if it turns out to be a mark,
then its label need not be one of those that are taken. -/
theorem exists_symbols (h : Begun q) (taken : List Label) :
    ∃ c w, Spelling.symbols c = q ++ w ∧ ∀ l, c.command = .mark l → l ∉ taken := by
  obtain ⟨c, w, hw, hc⟩ := h
  cases c with
  | push n => exact ⟨.push n, w, hc, by simp [command]⟩
  | op o => exact ⟨.op o, w, hc, by simp [command]⟩
  | label use bits =>
    cases use with
    | branch kind => exact ⟨.label (.branch kind) bits, w, hc, by simp [command]⟩
    | mark =>
      -- only the line feed that ends the label has to be missing for it to grow
      obtain ⟨v, x, rfl⟩ := (List.eq_nil_or_concat w).resolve_left hw
      rw [symbols, List.concat_eq_append, ← List.append_assoc] at hc
      obtain ⟨hv, -⟩ := List.append_inj' hc rfl
      obtain ⟨more, hmore⟩ := Label.exists_ofBits_append_notMem bits taken
      refine ⟨.label .mark (bits ++ more), v ++ more.map Bit.symbol ++ [.lf], ?_, ?_⟩
      · rw [symbols, List.map_append, ← List.append_assoc, hv]
        simp only [List.append_assoc]
      · intro l hl
        cases hl
        exact hmore

end Spelling.Begun

end Whitespace

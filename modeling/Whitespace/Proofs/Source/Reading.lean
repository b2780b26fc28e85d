import Whitespace.Source.Spelling

/-!
# Reading a command

A fragment is fed a word of symbols, one after the other.  Every spelled command
is complete with its last symbol and not before (`feedAll_symbols`), and what has
been read determines the fragment.  So no command begins another one
(`Spelling.eq_of_symbols_append_eq`).
-/

namespace Whitespace

namespace Fragment

/-- Reads a word of symbols.  Nothing may follow a complete command. -/
def feedAll (f : Fragment) : List Symbol → Progress
  | [] => .pending f
  | s :: w =>
    match f.feed s with
    | .pending g => g.feedAll w
    | .complete c => if w = [] then .complete c else .refused
    | .refused => .refused

theorem feedAll_cons_of_pending {f g : Fragment} {s : Symbol} (h : f.feed s = .pending g)
    (w : List Symbol) : f.feedAll (s :: w) = g.feedAll w := by
  rw [feedAll, h]

theorem feedAll_cons_eq_pending {f g : Fragment} {s : Symbol} {w : List Symbol}
    (h : f.feedAll (s :: w) = .pending g) :
    ∃ f', f.feed s = .pending f' ∧ f'.feedAll w = .pending g := by
  rw [feedAll] at h
  cases hs : f.feed s with
  | pending f' => exact ⟨f', rfl, by simpa only [hs] using h⟩
  | complete c =>
    simp only [hs] at h
    split at h <;> cases h
  | refused => simp only [hs] at h; cases h

/-- A word that is read into a complete command is complete with its first symbol
or goes on from there. -/
theorem feedAll_cons_eq_complete {f : Fragment} {s : Symbol} {w : List Symbol} {c : Spelling}
    (h : f.feedAll (s :: w) = .complete c) :
    (∃ f', f.feed s = .pending f' ∧ f'.feedAll w = .complete c) ∨
      (f.feed s = .complete c ∧ w = []) := by
  rw [feedAll] at h
  cases hs : f.feed s with
  | pending f' => exact .inl ⟨f', rfl, by simpa only [hs] using h⟩
  | complete c' =>
    simp only [hs] at h
    split at h
    · next hw =>
      cases h
      exact .inr ⟨rfl, hw⟩
    · cases h
  | refused => simp only [hs] at h; cases h

theorem feedAll_append {f g : Fragment} {v : List Symbol} (h : f.feedAll v = .pending g)
    (w : List Symbol) : f.feedAll (v ++ w) = g.feedAll w := by
  induction v generalizing f with
  | nil => cases h; rfl
  | cons s v ih =>
    obtain ⟨f', hs, hv⟩ := feedAll_cons_eq_pending h
    rw [List.cons_append, feedAll_cons_of_pending hs]
    exact ih hv

/-- Nothing is read behind a complete command. -/
theorem feedAll_append_of_complete {f : Fragment} {v w : List Symbol} {c : Spelling}
    (h : f.feedAll v = .complete c) (hw : w ≠ []) : f.feedAll (v ++ w) = .refused := by
  induction v generalizing f with
  | nil => cases h
  | cons s v ih =>
    rcases feedAll_cons_eq_complete h with ⟨f', hs, hv⟩ | ⟨hs, rfl⟩
    · rw [List.cons_append, feedAll_cons_of_pending hs]
      exact ih hv
    · simp [feedAll, hs, hw]

theorem symbols_of_feedAll_pending {f g : Fragment} {w : List Symbol}
    (h : f.feedAll w = .pending g) : g.symbols = f.symbols ++ w := by
  induction w generalizing f with
  | nil => cases h; simp
  | cons s w ih =>
    obtain ⟨f', hs, hw⟩ := feedAll_cons_eq_pending h
    rw [ih hw, symbols_of_pending hs, List.append_assoc, List.singleton_append]

theorem symbols_of_feedAll_complete {f : Fragment} {w : List Symbol} {c : Spelling}
    (h : f.feedAll w = .complete c) : c.symbols = f.symbols ++ w := by
  induction w generalizing f with
  | nil => cases h
  | cons s w ih =>
    rcases feedAll_cons_eq_complete h with ⟨f', hs, hw⟩ | ⟨hs, rfl⟩
    · rw [ih hw, symbols_of_pending hs, List.append_assoc, List.singleton_append]
    · exact symbols_of_complete hs

/-- What the word of an opcode leads to. -/
def afterWord : Opcode → Progress
  | .push => .pending sign
  | .label use => .pending (label use [])
  | .op o => .complete (.op o)

theorem feedAll_word (o : Opcode) : empty.feedAll o.word = afterWord o := by
  have h : ∀ o ∈ Opcode.all, empty.feedAll o.word = afterWord o := by decide
  exact h o (Opcode.mem_all o)

theorem feedAll_digits (sg : Bit) (read bits : List Bit) :
    (digits sg read).feedAll (bits.map Bit.symbol ++ [.lf]) =
      .complete (.push ⟨sg, read.reverse ++ bits⟩) := by
  induction bits generalizing read with
  | nil => simp [feedAll, feed, Bit.ofSymbol?]
  | cons b bits ih =>
    have hb : (digits sg read).feed b.symbol = .pending (digits sg (b :: read)) := by
      cases b <;> rfl
    rw [List.map_cons, List.cons_append, feedAll_cons_of_pending hb, ih]
    simp

theorem feedAll_label (use : LabelUse) (read bits : List Bit) :
    (label use read).feedAll (bits.map Bit.symbol ++ [.lf]) =
      .complete (.label use (read.reverse ++ bits)) := by
  induction bits generalizing read with
  | nil => simp [feedAll, feed, Bit.ofSymbol?]
  | cons b bits ih =>
    have hb : (label use read).feed b.symbol = .pending (label use (b :: read)) := by
      cases b <;> rfl
    rw [List.map_cons, List.cons_append, feedAll_cons_of_pending hb, ih]
    simp

/-- **Every spelled command is read back.** -/
theorem feedAll_symbols (c : Spelling) : empty.feedAll c.symbols = .complete c := by
  cases c with
  | push n =>
    have hsign : sign.feed n.sign.symbol = .pending (digits n.sign []) := by
      cases n.sign <;> rfl
    rw [Spelling.symbols, feedAll_append (feedAll_word .push), Numeral.symbols,
      List.cons_append, feedAll_cons_of_pending hsign, feedAll_digits]
    rfl
  | label use bits =>
    rw [Spelling.symbols, List.append_assoc, feedAll_append (feedAll_word (.label use)),
      feedAll_label]
    rfl
  | op o => exact feedAll_word (.op o)

/-- Symbols that are read from nothing into a complete command are its spelling. -/
theorem feedAll_eq_complete_iff {w : List Symbol} {c : Spelling} :
    empty.feedAll w = .complete c ↔ c.symbols = w := by
  constructor
  · exact symbols_of_feedAll_complete
  · rintro rfl
    exact feedAll_symbols c

/-- Located symbols are read to their end, up to a symbol that is refused, or up
to the end of a command. -/
theorem feedAll_cases (f : Fragment) (xs : List (Symbol × Nat)) :
    (∃ g, f.feedAll (xs.map Prod.fst) = .pending g) ∨
      (∃ ys s p rest g, xs = ys ++ (s, p) :: rest ∧
        f.feedAll (ys.map Prod.fst) = .pending g ∧ g.feed s = .refused) ∨
      ∃ ys rest c, xs = ys ++ rest ∧ f.feedAll (ys.map Prod.fst) = .complete c := by
  induction xs generalizing f with
  | nil => exact .inl ⟨f, rfl⟩
  | cons x xs ih =>
    obtain ⟨s, p⟩ := x
    cases hs : f.feed s with
    | refused => exact .inr (.inl ⟨[], s, p, xs, f, rfl, rfl, hs⟩)
    | complete c => exact .inr (.inr ⟨[(s, p)], xs, c, rfl, by simp [feedAll, hs]⟩)
    | pending g =>
      rcases ih g with ⟨g', h⟩ | ⟨ys, s', p', rest, g', rfl, h, h'⟩ | ⟨ys, rest, c, rfl, h⟩
      · exact .inl ⟨g', by rw [List.map_cons, feedAll_cons_of_pending hs, h]⟩
      · refine .inr (.inl ⟨(s, p) :: ys, s', p', rest, g', rfl, ?_, h'⟩)
        rw [List.map_cons, feedAll_cons_of_pending hs, h]
      · refine .inr (.inr ⟨(s, p) :: ys, rest, c, rfl, ?_⟩)
        rw [List.map_cons, feedAll_cons_of_pending hs, h]

end Fragment

namespace Spelling

theorem symbols_ne_nil (c : Spelling) : c.symbols ≠ [] := by
  intro h
  have := Fragment.feedAll_symbols c
  rw [h] at this
  cases this

theorem symbols_injective {c c' : Spelling} (h : c.symbols = c'.symbols) : c = c' := by
  have hc := Fragment.feedAll_symbols c
  rw [h, Fragment.feedAll_symbols c'] at hc
  cases hc
  rfl

/-- No command begins another one. -/
theorem eq_of_isPrefix_symbols {c c' : Spelling} (h : c.symbols <+: c'.symbols) : c = c' := by
  obtain ⟨w, hw⟩ := h
  by_cases hnil : w = []
  · subst hnil
    exact symbols_injective (by simpa using hw)
  · have hr := Fragment.feedAll_append_of_complete (Fragment.feedAll_symbols c) hnil
    rw [hw, Fragment.feedAll_symbols c'] at hr
    cases hr

/-- **The first command of a word of symbols is unique.** -/
theorem eq_of_symbols_append_eq {c c' : Spelling} {v w : List Symbol}
    (h : c.symbols ++ v = c'.symbols ++ w) : c = c' ∧ v = w := by
  have hc : c = c' := by
    rcases List.prefix_or_prefix_of_prefix (List.prefix_append c.symbols v)
      (h ▸ List.prefix_append c'.symbols w) with hp | hp
    · exact eq_of_isPrefix_symbols hp
    · exact (eq_of_isPrefix_symbols hp).symm
  subst hc
  exact ⟨rfl, List.append_cancel_left h⟩

end Spelling

end Whitespace

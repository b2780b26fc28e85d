import Whitespace.Proofs.Assembly.Decoding
import Whitespace.Proofs.Source.Beginning

/-!
# Where decoding stops

Decoding takes commands in until one of five things happens (`Source.Stops`): nothing is
left, an exit comes, a symbol comes that no command goes on with, the source breaks off
inside of a command, or a label is marked again.  Each of them determines the fault
(`Decoding.fault_of_stops`), and one of them happens behind the commands that decoding has
passed (`Decoding.exists_stopsBehind_of_passed`).  So the fault of a source is read off the
way in which it stops decoding (`Decoding.fault_ofSource_eq_iff`).
-/

namespace Whitespace

open Spelling (Begun)

def Script.ofSpellings (cs : List Spelling) : Script := cs.map Spelling.command

@[simp] theorem Script.ofSpellings_append (cs ds : List Spelling) :
    ofSpellings (cs ++ ds) = ofSpellings cs ++ ofSpellings ds :=
  List.map_append

theorem Spelling.command_eq_mark_iff {c : Spelling} {l : Label} :
    c.command = .mark l ↔ ∃ bits, c = .label .mark bits ∧ Label.ofBits bits = l := by
  constructor
  · intro h
    cases c with
    | push _ | op _ => cases h
    | label use bits =>
      cases use <;> cases h
      exact ⟨bits, rfl, rfl⟩
  · rintro ⟨bits, rfl, rfl⟩
    rfl

namespace Source

/-- Commands that decoding passes: there is no exit among them, and no label is marked
twice. -/
structure Passed (cs : List Spelling) : Prop where
  notMem : .op .exit ∉ cs
  nodup : (Script.ofSpellings cs).marks.Nodup

/-- How decoding stops in the symbols that are left, behind commands which have marked
these labels, and the fault that it stops with.  The source is `stop` bytes long. -/
inductive Stops (marked : List Label) (stop : Nat) :
    List (Symbol × Nat) → Option AssemblyError → Prop
  | ended : Stops marked stop [] none
  | exited {ys rest : List (Symbol × Nat)} (h : ys.map Prod.fst = (Spelling.op .exit).symbols) :
      Stops marked stop (ys ++ rest) none
  | refused {ys rest : List (Symbol × Nat)} {x : Symbol} {p : Nat} (hne : ys.map Prod.fst ≠ [])
      (hbegun : Begun (ys.map Prod.fst))
      (hx : ∀ c : Spelling, ¬ ys.map Prod.fst ++ [x] <+: c.symbols) :
      Stops marked stop (ys ++ (x, p) :: rest) (some (.unexpectedSymbol x p))
  | brokenOff {ys : List (Symbol × Nat)} (hne : ys.map Prod.fst ≠ [])
      (hbegun : Begun (ys.map Prod.fst)) :
      Stops marked stop ys (some (.unexpectedEnd stop))
  | again {ys rest : List (Symbol × Nat)} {bits : List Bit}
      (h : ys.map Prod.fst = (Spelling.label .mark bits).symbols)
      (hl : Label.ofBits bits ∈ marked) :
      Stops marked stop (ys ++ rest) (some (.duplicateLabel (.ofBits bits)))

variable {cs : List Spelling} {c : Spelling}

theorem passed_nil : Passed [] := ⟨List.not_mem_nil, List.nodup_nil⟩

theorem passed_concat_iff :
    Passed (cs ++ [c]) ↔ Passed cs ∧ c ≠ .op .exit ∧
      (Script.marks (Script.ofSpellings cs ++ [c.command])).Nodup := by
  have hscript : Script.ofSpellings (cs ++ [c]) = Script.ofSpellings cs ++ [c.command] := by
    rw [Script.ofSpellings_append]
    rfl
  constructor
  · rintro ⟨hmem, hnd⟩
    rw [hscript] at hnd
    rw [List.mem_append, not_or, List.mem_singleton] at hmem
    exact ⟨⟨hmem.1, (Script.marks_append ▸ hnd).of_append_left⟩, Ne.symm hmem.2, hnd⟩
  · rintro ⟨⟨hmem, -⟩, hexit, hnd⟩
    refine ⟨?_, hscript ▸ hnd⟩
    rw [List.mem_append, not_or, List.mem_singleton]
    exact ⟨hmem, Ne.symm hexit⟩

/-- Decoding passes these commands and stops behind them. -/
def StopsBehind (cs : List Spelling) (stop : Nat) (xs : List (Symbol × Nat))
    (fault : Option AssemblyError) : Prop :=
  Passed cs ∧ ∃ ys rest, xs = ys ++ rest ∧ ys.map Prod.fst = cs.flatMap Spelling.symbols ∧
    Stops (Script.ofSpellings cs).marks stop rest fault

end Source

open Source

namespace Decoding

variable {d : Decoding} {cs : List Spelling} {stop : Nat} {xs ys rest : List (Symbol × Nat)}
  {e : Option AssemblyError}

/-- Decoding stops at a symbol with which no command goes on. -/
theorem consume_of_begun_of_refused {x : Symbol} {p : Nat} (hbegun : Begun (ys.map Prod.fst))
    (hx : ∀ c : Spelling, ¬ ys.map Prod.fst ++ [x] <+: c.symbols) :
    d.consume .empty stop (ys ++ (x, p) :: rest) =
      { d with fault := some (.unexpectedSymbol x p) } := by
  obtain ⟨g, hg⟩ := Fragment.exists_feedAll_eq_pending_iff.2 hbegun
  exact consume_of_refused hg ((Fragment.feed_eq_refused_iff hg).2 hx)

/-- Decoding stops with the source if a command is not complete there. -/
theorem consume_of_begun (hne : xs.map Prod.fst ≠ []) (hbegun : Begun (xs.map Prod.fst)) :
    d.consume .empty stop xs = { d with fault := some (.unexpectedEnd stop) } := by
  obtain ⟨g, hg⟩ := Fragment.exists_feedAll_eq_pending_iff.2 hbegun
  have hg' : g ≠ .empty := by
    rintro rfl
    exact hne (Fragment.symbols_of_feedAll_pending hg).symm
  rw [← List.append_nil xs, consume_of_pending hg, consume, if_neg hg']

theorem fault_of_stops {script : Script} (h : Reflects d script)
    (hs : Stops script.marks stop xs e) : (d.consume .empty stop xs).fault = e := by
  cases hs with
  | ended => exact h.fault
  | exited hys =>
    rw [consume_of_complete (hys ▸ Fragment.feedAll_symbols _), if_pos (.inr rfl)]
    exact (h.accept_of_not_mark rfl).fault
  | refused _ hbegun hx =>
    rw [consume_of_begun_of_refused hbegun hx]
  | brokenOff hne hbegun =>
    rw [consume_of_begun hne hbegun]
  | again hys hl =>
    have hfault := h.fault_accept_mark hl
    rw [consume_of_complete (hys ▸ Fragment.feedAll_symbols _), Spelling.command,
      if_pos (.inl (by rw [hfault]; rfl)), hfault]

/-- Behind commands that it passes, decoding goes on with what they have led to. -/
theorem exists_reflects_of_passed (h : Passed cs)
    (hys : ys.map Prod.fst = cs.flatMap Spelling.symbols) (stop : Nat) :
    ∃ d, Reflects d (Script.ofSpellings cs) ∧
      ∀ rest, consume {} .empty stop (ys ++ rest) = d.consume .empty stop rest := by
  induction cs using List.reverseRecOn generalizing ys with
  | nil =>
    obtain rfl : ys = [] := List.map_eq_nil_iff.1 hys
    exact ⟨{}, .empty, fun _ => rfl⟩
  | append_singleton cs c ih =>
    obtain ⟨hcs, hexit, hnd⟩ := passed_concat_iff.1 h
    rw [List.flatMap_append, List.flatMap_singleton] at hys
    obtain ⟨us, vs, rfl, hus, hvs⟩ := List.map_eq_append_iff.1 hys
    obtain ⟨d, hd, hconsume⟩ := ih hcs hus
    have hnext := hd.accept hnd
    refine ⟨d.accept c.command, ?_, ?_⟩
    · rw [Script.ofSpellings_append]
      exact hnext
    · intro rest
      rw [List.append_assoc, hconsume, consume_of_complete (hvs ▸ Fragment.feedAll_symbols c),
        if_neg (by simp [hnext.fault, hexit])]

section

variable {source : List UInt8} {w : List Symbol}

theorem exists_reflects_of_symbols (h : Passed cs)
    (hsymbols : symbols source = cs.flatMap Spelling.symbols ++ w) :
    ∃ d rest, Reflects d (Script.ofSpellings cs) ∧ rest.map Prod.fst = w ∧
      ofSource source = d.consume .empty source.length rest := by
  rw [← map_fst_located 0] at hsymbols
  obtain ⟨ys, rest, hsplit, hys, hrest⟩ := List.map_eq_append_iff.1 hsymbols
  obtain ⟨d, hd, hconsume⟩ := exists_reflects_of_passed h hys source.length
  exact ⟨d, rest, hd, hrest, by rw [ofSource_eq_consume, hsplit, hconsume]⟩

/-- Behind commands that it passes, decoding takes in the command that comes next, and goes
on from there unless the command is refused or the exit. -/
theorem exists_accept_of_symbols (h : Passed cs) (c : Spelling)
    (hsymbols : symbols source = cs.flatMap Spelling.symbols ++ (c.symbols ++ w)) :
    ∃ d rest, Reflects d (Script.ofSpellings cs) ∧
      ofSource source =
        if (d.accept c.command).fault.isSome ∨ c = .op .exit then d.accept c.command
        else (d.accept c.command).consume .empty source.length rest := by
  obtain ⟨d, zs, hd, hzs, hsource⟩ := exists_reflects_of_symbols h hsymbols
  obtain ⟨us, rest, rfl, hus, -⟩ := List.map_eq_append_iff.1 hzs
  rw [consume_of_complete (hus ▸ Fragment.feedAll_symbols c)] at hsource
  exact ⟨d, rest, hd, hsource⟩

/-- The next command is kept, whatever follows it. -/
theorem prefix_commands_of_passed (h : Passed cs) (c : Spelling)
    (hsymbols : symbols source = cs.flatMap Spelling.symbols ++ (c.symbols ++ w)) :
    Script.ofSpellings cs ++ [c.command] <+: (ofSource source).commands := by
  obtain ⟨d, rest, hd, hsource⟩ := exists_accept_of_symbols h c hsymbols
  rw [hsource, ← hd.commands, ← commands_accept]
  split
  · exact List.prefix_refl _
  · exact commands_prefix_consume _ _ _ _

end

theorem fault_of_stopsBehind (h : StopsBehind cs stop xs e) :
    (consume {} .empty stop xs).fault = e := by
  obtain ⟨hcs, ys, rest, rfl, hys, hstops⟩ := h
  obtain ⟨d, hd, hconsume⟩ := exists_reflects_of_passed hcs hys stop
  rw [hconsume]
  exact fault_of_stops hd hstops

/-- Decoding stops somewhere.  The induction is on the number of symbols that are left
behind the commands which have been passed so far. -/
theorem exists_stopsBehind_of_passed (hcs : Passed cs)
    (hys : ys.map Prod.fst = cs.flatMap Spelling.symbols) (stop : Nat)
    (rest : List (Symbol × Nat)) : ∃ cs e, StopsBehind cs stop (ys ++ rest) e := by
  induction hn : rest.length using Nat.strongRecOn generalizing cs ys rest with
  | _ n ih =>
    subst hn
    rcases Fragment.feedAll_cases .empty rest with ⟨g, hg⟩ | ⟨us, x, p, vs, g, rfl, hg, hx⟩ |
      ⟨us, vs, c, rfl, hc⟩
    · have hbegun := Fragment.exists_feedAll_eq_pending_iff.1 ⟨g, hg⟩
      by_cases hne : rest.map Prod.fst = []
      · obtain rfl : rest = [] := List.map_eq_nil_iff.1 hne
        exact ⟨cs, none, hcs, ys, [], rfl, hys, .ended⟩
      · exact ⟨cs, _, hcs, ys, rest, rfl, hys, .brokenOff hne hbegun⟩
    · have hbegun := Fragment.exists_feedAll_eq_pending_iff.1 ⟨g, hg⟩
      have hne : us.map Prod.fst ≠ [] := by
        intro hnil
        rw [hnil] at hg
        cases hg
        exact Fragment.feed_empty_ne_refused x hx
      exact ⟨cs, _, hcs, ys, _, rfl, hys,
        .refused hne hbegun ((Fragment.feed_eq_refused_iff hg).1 hx)⟩
    · have hsymbols := (Fragment.feedAll_eq_complete_iff.1 hc).symm
      by_cases hexit : c = .op .exit
      · subst hexit
        exact ⟨cs, _, hcs, ys, _, rfl, hys, .exited hsymbols⟩
      by_cases hnd : (Script.marks (Script.ofSpellings cs ++ [c.command])).Nodup
      · have hlt : vs.length < (us ++ vs).length := by
          have hne : us ≠ [] := by
            rintro rfl
            exact c.symbols_ne_nil hsymbols.symm
          have := List.length_pos_iff.2 hne
          rw [List.length_append]
          omega
        have hys' : (ys ++ us).map Prod.fst = (cs ++ [c]).flatMap Spelling.symbols := by
          rw [List.map_append, hys, hsymbols, List.flatMap_append, List.flatMap_singleton]
        obtain ⟨cs', e, h⟩ := ih _ hlt (passed_concat_iff.2 ⟨hcs, hexit, hnd⟩) hys' vs rfl
        exact ⟨cs', e, List.append_assoc .. ▸ h⟩
      · obtain ⟨l, hmark, hl⟩ := Script.exists_mark_of_not_nodup hcs.nodup hnd
        obtain ⟨bits, rfl, rfl⟩ := Spelling.command_eq_mark_iff.1 hmark
        exact ⟨cs, _, hcs, ys, _, rfl, hys, .again hsymbols hl⟩

/-- **The fault of a source is the way in which it stops decoding.** -/
theorem fault_ofSource_eq_iff {source : List UInt8} :
    (ofSource source).fault = e ↔
      ∃ cs, StopsBehind cs source.length (located 0 source) e := by
  rw [ofSource_eq_consume]
  constructor
  · intro h
    have hnil : ([] : List (Symbol × Nat)).map Prod.fst = List.flatMap Spelling.symbols [] := rfl
    obtain ⟨cs, e', hstops⟩ := exists_stopsBehind_of_passed passed_nil hnil source.length
      (located 0 source)
    rw [List.nil_append] at hstops
    rw [fault_of_stopsBehind hstops] at h
    exact ⟨cs, h ▸ hstops⟩
  · rintro ⟨cs, h⟩
    exact fault_of_stopsBehind h

end Decoding

end Whitespace

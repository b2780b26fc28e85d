import Whitespace.Proofs.Assembly.Errors
import Whitespace.Proofs.Assembly.WellFormed

/-!
# Concatenated sources

Between two commands decoding knows nothing but the script so far.  So a source that
is put behind another one is decoded as if it stood alone, but for labels that are
marked in both of them: the first such mark is a fault (`assemble_append_of_marked`).
Without one, both scripts are linked one by one (`Script.linked_append`).

An exit in the first source keeps the second one from being read at all
(`assemble_append`).
-/

namespace Whitespace

open Source

/-- The labels that a source marks, in order. -/
def Source.marked (source : List UInt8) : List Label :=
  Script.marks (Decoding.ofSource source).commands

namespace Spells

variable {a b : List UInt8} {cs ds : List Spelling}

theorem marked_eq (h : Spells a cs) : marked a = (Script.ofSpellings cs).marks := by
  rw [marked, h.reflects.commands]

/-- Without an exit a source is spelled out to its end. -/
theorem symbols_of_open (h : Spells a cs) (hopen : .op .exit ∉ cs) :
    symbols a = cs.flatMap Spelling.symbols := by
  rcases h.2 with ⟨-, hsymbols⟩ | ⟨body, rest, rfl, -, -⟩
  · exact hsymbols
  · exact absurd (List.mem_append_right body (List.mem_singleton_self _)) hopen

theorem spelled_append (ha : Spells a cs) (hopen : .op .exit ∉ cs) (hb : Spells b ds) :
    Spelled (cs ++ ds) (symbols (a ++ b)) := by
  rw [symbols_append, ha.symbols_of_open hopen]
  exact Spelled.append hopen (spells_iff.1 hb).2

theorem append (ha : Spells a cs) (hopen : .op .exit ∉ cs) (hb : Spells b ds)
    (hdisjoint : ∀ l ∈ (Script.ofSpellings ds).marks, l ∉ (Script.ofSpellings cs).marks) :
    Spells (a ++ b) (cs ++ ds) := by
  refine spells_iff.2 ⟨?_, ha.spelled_append hopen hb⟩
  rw [Script.ofSpellings_append, Script.marks_append, List.nodup_append]
  refine ⟨ha.1, hb.1, ?_⟩
  rintro l hl m hm rfl
  exact hdisjoint l hm hl

/-- Nothing is read behind an exit. -/
theorem append_of_exit (h : Spells a cs) (hexit : .op .exit ∈ cs) (b : List UInt8) :
    Spells (a ++ b) cs := by
  rcases h with ⟨hnd, ⟨hopen, -⟩ | ⟨body, rest, hcs, hbody, hsymbols⟩⟩
  · exact absurd hexit hopen
  · refine ⟨hnd, .inr ⟨body, rest ++ symbols b, hcs, hbody, ?_⟩⟩
    rw [symbols_append, hsymbols, List.append_assoc]

end Spells

/-! ## Labels that are marked again -/

/-- The mark of a label among spelled commands. -/
theorem Script.exists_mark_of_marks_eq {cs : List Spelling} {before after : List Label} {l : Label}
    (h : (Script.ofSpellings cs).marks = before ++ l :: after) :
    ∃ us bits vs, cs = us ++ .label .mark bits :: vs ∧ (Script.ofSpellings us).marks = before ∧
      Label.ofBits bits = l := by
  rw [marks, ofSpellings, List.filterMap_map] at h
  obtain ⟨us, c, vs, rfl, hc, hus⟩ := exists_of_filterMap_eq_append_cons h
  obtain ⟨bits, rfl, hl⟩ := Spelling.command_eq_mark_iff.1 (Instruction.marked?_eq_some_iff.1 hc)
  exact ⟨us, bits, vs, rfl, (List.filterMap_map ..).trans hus, hl⟩

/-- What stands before a spelled command is passed, and its symbols come next. -/
theorem Spelled.exists_of_append {cs ds : List Spelling} {c : Spelling} {w : List Symbol}
    (h : Spelled (cs ++ c :: ds) w) :
    .op .exit ∉ cs ∧ ∃ v, w = cs.flatMap Spelling.symbols ++ (c.symbols ++ v) := by
  induction cs generalizing w with
  | nil =>
    refine ⟨List.not_mem_nil, ?_⟩
    cases h with
    | exit v => exact ⟨v, rfl⟩
    | @cons _ _ v _ _ => exact ⟨v, rfl⟩
  | cons c' cs ih =>
    rw [List.cons_append] at h
    generalize hcs : cs ++ c :: ds = es at h
    cases h with
    | exit _ => exact absurd hcs (by simp)
    | cons hc' h =>
      obtain ⟨hopen, v, rfl⟩ := ih (hcs ▸ h)
      refine ⟨?_, v, ?_⟩
      · rw [List.mem_cons, not_or]
        exact ⟨Ne.symm hc', hopen⟩
      · rw [List.flatMap_cons, List.append_assoc]

/-! ## Assembly -/

section

variable {a b : List UInt8} {p q : Program}

theorem exists_spells_of_assemble (h : assemble a = .ok p) :
    ∃ cs, Spells a cs ∧ marked a = (Script.ofSpellings cs).marks ∧
      (.op .exit ∈ p.toList ↔ .op .exit ∈ cs) := by
  obtain ⟨cs, hcs, -, rfl⟩ := assemble_eq_ok_iff.1 h
  exact ⟨cs, hcs, hcs.marked_eq, Script.mem_linked_exit.trans Script.exit_mem_ofSpellings⟩

theorem assemble_append_of_exit (ha : assemble a = .ok p) (hexit : .op .exit ∈ p.toList)
    (b : List UInt8) : assemble (a ++ b) = .ok p := by
  obtain ⟨cs, hcs, hmarked, rfl⟩ := assemble_eq_ok_iff.1 ha
  have hexit' := Script.exit_mem_ofSpellings.1 (Script.mem_linked_exit.1 hexit)
  exact assemble_eq_ok_iff.2 ⟨cs, hcs.append_of_exit hexit' b, hmarked, rfl⟩

theorem assemble_append_of_disjoint (ha : assemble a = .ok p) (hopen : .op .exit ∉ p.toList)
    (hb : assemble b = .ok q) (hdisjoint : ∀ l ∈ marked b, l ∉ marked a) :
    assemble (a ++ b) = .ok (p.followedBy q) := by
  obtain ⟨cs, hcs, hcsm, rfl⟩ := assemble_eq_ok_iff.1 ha
  obtain ⟨ds, hds, hdsm, rfl⟩ := assemble_eq_ok_iff.1 hb
  rw [hcs.marked_eq, hds.marked_eq] at hdisjoint
  have hopen' : .op .exit ∉ cs := by
    intro hexit
    exact hopen (Script.mem_linked_exit.2 (Script.exit_mem_ofSpellings.2 hexit))
  refine assemble_eq_ok_iff.2 ⟨cs ++ ds, hcs.append hopen' hds hdisjoint, ?_, ?_⟩
  · rw [Script.ofSpellings_append, Script.marks_append, Script.branchLabels, List.filterMap_append]
    intro l hl
    exact List.mem_append.2 ((List.mem_append.1 hl).imp (hcsm l) (hdsm l))
  · rw [Script.ofSpellings_append, Script.linked_append hcsm hdsm hdisjoint, Program.followedBy,
      Program.size_eq_length, Program.toList_ofList, Program.toList_ofList, Script.length_linked]

/-- Of the labels that are marked in both sources, the one that the second source marks
first is reported. -/
theorem assemble_append_of_marked (ha : assemble a = .ok p) (hopen : .op .exit ∉ p.toList)
    (hb : assemble b = .ok q) {l : Label} (hl : (marked b).find? (· ∈ marked a) = some l) :
    assemble (a ++ b) = .error (.duplicateLabel l) := by
  obtain ⟨cs, hcs, hcsm, hexit⟩ := exists_spells_of_assemble ha
  obtain ⟨ds, hds, hdsm, -⟩ := exists_spells_of_assemble hb
  obtain ⟨hla, before, after, hsplit, hbefore⟩ := List.find?_eq_some_iff_append.1 hl
  rw [decide_eq_true_iff] at hla
  rw [hdsm] at hsplit
  rw [hcsm] at hla hbefore
  obtain ⟨us, bits, vs, rfl, rfl, rfl⟩ := Script.exists_mark_of_marks_eq hsplit
  have hspelled := hcs.spelled_append (fun h => hopen (hexit.2 h)) hds
  rw [← List.append_assoc] at hspelled
  obtain ⟨hopen', w, hw⟩ := hspelled.exists_of_append
  have hnd : (Script.ofSpellings (cs ++ us)).marks.Nodup := by
    have hndb := hds.1
    rw [Script.ofSpellings_append, Script.marks_append] at hndb
    rw [Script.ofSpellings_append, Script.marks_append]
    refine List.nodup_append.2 ⟨hcs.1, hndb.of_append_left, ?_⟩
    rintro m hm _ hm' rfl
    have hnot := hbefore m hm'
    simp [hm] at hnot
  refine assemble_of_again ⟨hopen', hnd⟩ ?_ hw
  rw [Script.ofSpellings_append, Script.marks_append]
  exact List.mem_append_left _ hla

end

/-- **Concatenating sources concatenates their programs.**  The second program is moved
behind the first one, where the first one may branch to, unless a label is marked in
both sources.  Then the first such mark in the second source is a fault.  An exit in the
first program hides the second source. -/
theorem assemble_append {a : List UInt8} {p : Program} (ha : assemble a = .ok p) :
    (.op .exit ∉ p.toList → ∀ b q, assemble b = .ok q →
      ((∀ l ∈ marked b, l ∉ marked a) →
        assemble (a ++ b) = .ok (p.followedBy q) ∧
        ∀ t ∈ p.targets, t.index = p.size → (p.followedBy q).get? t.index =
          (q.get? 0).map (Instruction.mapTarget (Target.relocate (p.size + ·)))) ∧
      ((∃ l ∈ marked b, l ∈ marked a) →
        ∃ l, (marked b).find? (· ∈ marked a) = some l ∧
          assemble (a ++ b) = .error (.duplicateLabel l))) ∧
    (.op .exit ∈ p.toList → ∀ b, assemble (a ++ b) = .ok p) := by
  refine ⟨?_, fun hexit => assemble_append_of_exit ha hexit⟩
  intro hopen b q hb
  constructor
  · intro hdisjoint
    refine ⟨assemble_append_of_disjoint ha hopen hb hdisjoint, ?_⟩
    intro t _ ht
    rw [ht]
    exact p.get?_followedBy_add q 0
  · rintro ⟨l, hlb, hla⟩
    cases hfind : (marked b).find? (· ∈ marked a) with
    | none =>
      have hnone := List.find?_eq_none.1 hfind l hlb
      exact absurd hla (by simpa using hnone)
    | some m => exact ⟨m, rfl, assemble_append_of_marked ha hopen hb hfind⟩

namespace Countdown

/-- Goes over a mark of its own to the exit. -/
def epilogue : List UInt8 := ofSymbols (List.flatMap Spelling.symbols
  [.label (.branch .jump) [.one, .one], .label .mark [.one, .one], .op .exit])

def epilogueProgram : Program := Program.ofList [.branch .jump ⟨⟨"TT"⟩, 1⟩, .op .exit]

/-- The countdown goes on with the epilogue, cannot be put behind itself, and cannot be
reached behind the exit. -/
theorem appended : assemble source = .ok program ∧ .op .exit ∉ program.toList ∧
    assemble epilogue = .ok epilogueProgram ∧ .op .exit ∈ epilogueProgram.toList ∧
    assemble (source ++ epilogue) = .ok (program.followedBy epilogueProgram) ∧
    assemble (source ++ source) = .error (.duplicateLabel ⟨""⟩) ∧
    assemble (epilogue ++ source) = .ok epilogueProgram := by
  have hopen : .op .exit ∉ program.toList := by decide
  have hexit : .op .exit ∈ epilogueProgram.toList := by decide
  have hepilogue : assemble epilogue = .ok epilogueProgram := rfl
  obtain ⟨hbehind, -⟩ := assemble_append assemble_source
  obtain ⟨-, hhidden⟩ := assemble_append hepilogue
  have hmarks : marked source = [⟨""⟩, ⟨"T"⟩, ⟨"S"⟩] := rfl
  have hmarks' : marked epilogue = [⟨"TT"⟩] := rfl
  have hown := (hbehind hopen epilogue epilogueProgram hepilogue).1
  obtain ⟨l, hl, htwice⟩ := (hbehind hopen source program assemble_source).2
    ⟨⟨""⟩, by decide, by decide⟩
  rw [hmarks] at hl
  cases hl
  rw [hmarks, hmarks'] at hown
  exact ⟨assemble_source, hopen, hepilogue, hexit, (hown (by decide)).1, htwice,
    hhidden hexit source⟩

end Countdown

end Whitespace

import Whitespace.Proofs.Assembly.Errors

/-!
# Label errors

Decoding stops with the first mark of a label that was marked before, whatever follows it.
So the label that is reported is the only one which is marked twice up to there
(`assemble_eq_duplicateLabel_iff`).  A label that is marked nowhere is looked for only when
the whole source has been decoded, and the first branch to one is reported
(`assemble_eq_labelNotFound_iff_branch`).
-/

namespace Whitespace

open Source

theorem Instruction.target?_eq_some_iff {α : Type} {i : Instruction α} {t : α} :
    i.target? = some t ↔ ∃ kind, i = branch kind t := by
  cases i <;> simp [target?]

namespace Script

variable {cs : Script} {marked : List Label} {l : Label}

/-- The first branch label without a mark is that of the first branch without one. -/
theorem find?_branchLabels_eq_some_iff :
    cs.branchLabels.find? (· ∉ marked) = some l ↔
      ∃ before kind after, cs = before ++ .branch kind l :: after ∧ l ∉ marked ∧
        ∀ m ∈ branchLabels before, m ∈ marked := by
  rw [List.find?_eq_some_iff_append, decide_eq_true_iff]
  constructor
  · rintro ⟨hl, as, bs, hsplit, has⟩
    obtain ⟨before, c, after, rfl, hc, rfl⟩ := exists_of_filterMap_eq_append_cons hsplit
    obtain ⟨kind, rfl⟩ := Instruction.target?_eq_some_iff.1 hc
    refine ⟨before, kind, after, rfl, hl, ?_⟩
    intro m hm
    simpa using has m hm
  · rintro ⟨before, kind, after, rfl, hl, hbefore⟩
    refine ⟨hl, branchLabels before, branchLabels after, ?_, ?_⟩
    · rw [branchLabels_append, branchLabels_cons]
      rfl
    · intro m hm
      simpa using hbefore m hm

end Script

namespace Source

variable {cs : List Spelling}

/-- Commands that mark a label twice have a first mark of a label that was marked before. -/
theorem exists_first_again (hopen : .op .exit ∉ cs)
    (h : ¬ (Script.ofSpellings cs).marks.Nodup) :
    ∃ before bits after, cs = before ++ .label .mark bits :: after ∧ Passed before ∧
      Label.ofBits bits ∈ (Script.ofSpellings before).marks := by
  induction cs using List.reverseRecOn with
  | nil => exact absurd List.nodup_nil h
  | append_singleton cs c ih =>
    rw [List.mem_append, not_or] at hopen
    by_cases hnd : (Script.ofSpellings cs).marks.Nodup
    · rw [Script.ofSpellings_append] at h
      obtain ⟨l, hmark, hl⟩ := Script.exists_mark_of_not_nodup hnd h
      obtain ⟨bits, rfl, rfl⟩ := Spelling.command_eq_mark_iff.1 hmark
      exact ⟨cs, bits, [], rfl, ⟨hopen.1, hnd⟩, hl⟩
    · obtain ⟨before, bits, after, rfl, hbefore, hl⟩ := ih hopen.1 hnd
      exact ⟨before, bits, after ++ [c], by simp, hbefore, hl⟩

end Source

section

variable {source : List UInt8} {before : List Spelling} {bits : List Bit} {l : Label}

/-- A label that is marked again is marked twice. -/
theorem Source.two_le_count_of_again (hl : Label.ofBits bits ∈ (Script.ofSpellings before).marks)
    (after : List Spelling) :
    2 ≤ (Script.ofSpellings (before ++ .label .mark bits :: after)).marks.count
      (.ofBits bits) := by
  have hbefore := List.count_pos_iff.2 hl
  have hmarks : (Script.ofSpellings (before ++ .label .mark bits :: after)).marks =
      (Script.ofSpellings before).marks ++ .ofBits bits :: (Script.ofSpellings after).marks := by
    rw [Script.ofSpellings_append, Script.marks_append]
    rfl
  rw [hmarks, List.count_append, List.count_cons_self]
  omega

theorem assemble_eq_duplicateLabel_iff :
    assemble source = .error (.duplicateLabel l) ↔
      ∃ cs c, (cs ++ [c]).flatMap Spelling.symbols <+: symbols source ∧
        .op .exit ∉ cs ∧ c.command = .mark l ∧ l ∈ (Script.ofSpellings cs).marks ∧
        ∀ m ≠ l, (Script.ofSpellings (cs ++ [c])).marks.count m ≤ 1 := by
  constructor
  · intro h
    obtain ⟨cs, hcs, ys, rest, hsplit, hys, hstops⟩ :=
      (assemble_eq_error_iff_stopsBehind (by simp)).1 h
    cases hstops with
    | @again us vs bits hus hl =>
      refine ⟨cs, .label .mark bits, ⟨vs.map Prod.fst, ?_⟩, hcs.notMem, rfl, hl, ?_⟩
      · rw [List.flatMap_append, List.flatMap_singleton, ← hys, ← hus, ← map_fst_located 0, hsplit]
        simp only [List.map_append, List.append_assoc]
      · intro m hm
        rw [Script.ofSpellings_append, Script.marks_append, List.count_append]
        have hlast : List.count m (Script.ofSpellings [.label .mark bits]).marks = 0 :=
          List.count_eq_zero.2 fun hmem => hm (List.mem_singleton.1 hmem)
        rw [hlast]
        exact List.nodup_iff_count_le_one.1 hcs.nodup m
  · rintro ⟨cs, c, ⟨w, hw⟩, hopen, hmark, hl, hothers⟩
    have hopen' : .op .exit ∉ cs ++ [c] := by
      rw [List.mem_append, not_or, List.mem_singleton]
      refine ⟨hopen, ?_⟩
      rintro rfl
      cases hmark
    have hrepeated : ¬ (Script.ofSpellings (cs ++ [c])).marks.Nodup := by
      rw [Script.ofSpellings_append]
      intro hnd
      exact (Script.nodup_marks_concat_iff.1 hnd).2 l hmark hl
    obtain ⟨before, bits, after, hfirst, hbefore, hagain⟩ := exists_first_again hopen' hrepeated
    rw [hfirst] at hw hothers
    -- only the label of the last command is marked twice, so it is the one that is met first
    obtain rfl : Label.ofBits bits = l := by
      by_contra hne
      have htwice := two_le_count_of_again hagain after
      have hle := hothers _ hne
      omega
    rw [List.flatMap_append, List.flatMap_cons, List.append_assoc, List.append_assoc] at hw
    exact assemble_of_again hbefore hagain hw.symm

theorem assemble_eq_labelNotFound_iff_branch :
    assemble source = .error (.labelNotFound l) ↔
      ∃ cs, Spells source cs ∧ ∃ before kind after,
        Script.ofSpellings cs = before ++ .branch kind l :: after ∧
        l ∉ (Script.ofSpellings cs).marks ∧
        ∀ m ∈ Script.branchLabels before, m ∈ (Script.ofSpellings cs).marks := by
  rw [assemble_eq_labelNotFound_iff]
  simp only [Script.find?_branchLabels_eq_some_iff]

end

/-- **Label errors are exact.**  A label is reported as marked again iff a source begins
with commands, none of them an exit, of which the last one marks it again while no other
label is marked twice among them.  A label is reported as not found iff the source is
decoded and the first branch to a label without a mark is to this one.  Labels are the same
iff they are spelled alike. -/
theorem label_errors_exact (s : List UInt8) :
    (∀ l, assemble s = .error (.duplicateLabel l) ↔
      ∃ cs c, (cs ++ [c]).flatMap Spelling.symbols <+: symbols s ∧ .op .exit ∉ cs ∧
        c.command = .mark l ∧ l ∈ (Script.ofSpellings cs).marks ∧
        ∀ m ≠ l, (Script.ofSpellings (cs ++ [c])).marks.count m ≤ 1) ∧
    (∀ l, assemble s = .error (.labelNotFound l) ↔
      ∃ cs, Spells s cs ∧ ∃ before kind after,
        Script.ofSpellings cs = before ++ .branch kind l :: after ∧
        l ∉ (Script.ofSpellings cs).marks ∧
        ∀ m ∈ Script.branchLabels before, m ∈ (Script.ofSpellings cs).marks) ∧
    ∀ as bs, Label.ofBits as = Label.ofBits bs ↔ as = bs := by
  refine ⟨fun l => assemble_eq_duplicateLabel_iff, fun l => assemble_eq_labelNotFound_iff_branch,
    fun as bs => ⟨Label.ofBits_injective, ?_⟩⟩
  rintro rfl
  rfl

-- a leading zero makes another label
example : assemble (ofSymbols (List.flatMap Spelling.symbols
    [.label .mark [.one], .label (.branch .jump) [.zero, .one]])) =
    .error (.labelNotFound ⟨"ST"⟩) := rfl

end Whitespace

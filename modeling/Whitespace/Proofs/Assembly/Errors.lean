import Whitespace.Proofs.Assembly.Grammar

/-!
# Errors of assembly

A source is refused for the fault that decoding stops with, and without a fault for the
first branch label that has no mark (`assemble_eq_error_iff`).  Decoding never looks for a
label, so the two kinds of errors exclude each other.
-/

namespace Whitespace

open Source

variable {source : List UInt8} {cs : List Spelling} {e : AssemblyError} {l : Label}

theorem assemble_of_fault (h : (Decoding.ofSource source).fault = some e) :
    assemble source = .error e := by
  rw [assemble, Decoding.program, h]

theorem Spells.assemble_eq (h : Spells source cs) :
    assemble source =
      match (Script.ofSpellings cs).branchLabels.find? (· ∉ (Script.ofSpellings cs).marks) with
      | some l => .error (.labelNotFound l)
      | none => .ok (Program.ofList (Script.ofSpellings cs).linked) :=
  h.reflects.program.trans h.reflects.link

/-- Assembly fails with a fault of decoding, or in a source that is decoded for want of a
mark. -/
theorem assemble_eq_error_iff :
    assemble source = .error e ↔ (Decoding.ofSource source).fault = some e ∨
      ∃ l cs, e = .labelNotFound l ∧ Spells source cs ∧
        (Script.ofSpellings cs).branchLabels.find? (· ∉ (Script.ofSpellings cs).marks) =
          some l := by
  constructor
  · intro h
    cases hfault : (Decoding.ofSource source).fault with
    | some e' =>
      rw [assemble_of_fault hfault] at h
      cases h
      exact .inl rfl
    | none =>
      obtain ⟨cs, hcs⟩ := exists_spells_of_fault_eq_none hfault
      rw [hcs.assemble_eq] at h
      split at h
      · next l hfind =>
        cases h
        exact .inr ⟨l, cs, rfl, hcs, hfind⟩
      · cases h
  · rintro (h | ⟨l, cs, rfl, hcs, hfind⟩)
    · exact assemble_of_fault h
    · rw [hcs.assemble_eq, hfind]

/-- Linking fails for want of a mark only. -/
theorem exists_labelNotFound (hf : (Decoding.ofSource source).fault = none)
    (h : assemble source = .error e) : ∃ l, e = .labelNotFound l := by
  rcases assemble_eq_error_iff.1 h with hfault | ⟨l, -, rfl, -⟩
  · rw [hf] at hfault
    cases hfault
  · exact ⟨l, rfl⟩

theorem assemble_eq_labelNotFound_iff :
    assemble source = .error (.labelNotFound l) ↔ ∃ cs, Spells source cs ∧
      (Script.ofSpellings cs).branchLabels.find? (· ∉ (Script.ofSpellings cs).marks) = some l := by
  rw [assemble_eq_error_iff]
  constructor
  · rintro (h | ⟨m, cs, hm, hcs, hfind⟩)
    · obtain ⟨_, _, _, _, _, _, hstops⟩ := Decoding.fault_ofSource_eq_iff.1 h
      cases hstops
    · cases hm
      exact ⟨cs, hcs, hfind⟩
  · rintro ⟨cs, hcs, hfind⟩
    exact .inr ⟨l, cs, rfl, hcs, hfind⟩

theorem assemble_eq_error_iff_stopsBehind (he : ∀ l, e ≠ .labelNotFound l) :
    assemble source = .error e ↔
      ∃ cs, StopsBehind cs source.length (located 0 source) (some e) := by
  rw [assemble_eq_error_iff, Decoding.fault_ofSource_eq_iff]
  refine ⟨?_, .inl⟩
  rintro (h | ⟨l, -, hl, -⟩)
  · exact h
  · exact absurd hl (he l)

/-- A label that is marked again is reported, whatever follows its mark. -/
theorem assemble_of_again {bits : List Bit} {w : List Symbol} (hcs : Passed cs)
    (hl : Label.ofBits bits ∈ (Script.ofSpellings cs).marks)
    (h : symbols source =
      cs.flatMap Spelling.symbols ++ ((Spelling.label .mark bits).symbols ++ w)) :
    assemble source = .error (.duplicateLabel (.ofBits bits)) := by
  rw [← map_fst_located 0] at h
  obtain ⟨ys, rest, hsplit, hys, hrest⟩ := List.map_eq_append_iff.1 h
  obtain ⟨us, vs, rfl, hus, -⟩ := List.map_eq_append_iff.1 hrest
  exact (assemble_eq_error_iff_stopsBehind (by simp)).2 ⟨cs, hcs, ys, _, hsplit, hys, .again hus hl⟩

end Whitespace

import Whitespace.Proofs.Assembly.Decoding

/-!
# Linking a decoded script

A label is looked up in the table that decoding has built, which holds the
addresses of the script (`Reflects.resolve`).  So linking replaces every label by
its address, or reports the first branch label that is marked nowhere
(`Reflects.link`).
-/

namespace Whitespace

/-- Linking instruction by instruction: the first label without a mark is the
error, and without such a label every branch gets its target. -/
theorem mapM_mapTargetM {f : Label → Except AssemblyError Target} {g : Label → Target}
    {marked : List Label}
    (hf : ∀ l, f l = if l ∈ marked then .ok (g l) else .error (.labelNotFound l))
    (code : List Command) :
    code.mapM (Instruction.mapTargetM f) =
      match (Script.branchLabels code).find? (· ∉ marked) with
      | some l => .error (.labelNotFound l)
      | none => .ok (code.map (Instruction.mapTarget g)) := by
  induction code with
  | nil => rfl
  | cons c code ih =>
    rw [List.mapM_cons, ih]
    cases c with
    | branch kind l =>
      rw [Script.branchLabels_cons, Instruction.mapTargetM, hf l]
      simp only [Instruction.target?, Option.toList_some, List.singleton_append]
      by_cases hl : l ∈ marked
      · rw [List.find?_cons_of_neg (by simpa using hl)]
        simp only [hl, ↓reduceIte]
        cases (Script.branchLabels code).find? (· ∉ marked) <;> rfl
      · rw [List.find?_cons_of_pos (by simpa using hl)]
        simp only [hl, ↓reduceIte]
        rfl
    | push _ | mark _ | op _ =>
      rw [Script.branchLabels_cons]
      simp only [Instruction.target?, Option.toList_none, List.nil_append]
      cases (Script.branchLabels code).find? (· ∉ marked) <;> rfl

namespace Decoding.Reflects

variable {d : Decoding} {cs : Script}

/-- The table holds the addresses of the script. -/
theorem resolve (h : Reflects d cs) (l : Label) :
    d.resolve l = if l ∈ cs.marks then .ok (cs.target l) else .error (.labelNotFound l) := by
  rw [Decoding.resolve, h.labels l]
  by_cases hl : l ∈ cs.marks
  · simp only [hl, ↓reduceIte]
    rfl
  · simp only [hl, ↓reduceIte]

theorem code (h : Reflects d cs) : d.code = cs.filter fun c => !c.isMark := by
  rw [Decoding.code, h.commands]

/-- **Linking** replaces every label by its address, unless a label is marked
nowhere. -/
theorem link (h : Reflects d cs) :
    d.link =
      match cs.branchLabels.find? (· ∉ cs.marks) with
      | some l => .error (.labelNotFound l)
      | none => .ok (Program.ofList cs.linked) := by
  rw [Decoding.link, h.code, mapM_mapTargetM h.resolve, Script.branchLabels_filter]
  cases cs.branchLabels.find? (· ∉ cs.marks) <;> rfl

theorem program (h : Reflects d cs) : d.program = d.link := by
  rw [Decoding.program, h.fault]

theorem program_eq_ok_iff (h : Reflects d cs) {p : Program} :
    d.program = .ok p ↔ (∀ l ∈ cs.branchLabels, l ∈ cs.marks) ∧ p = Program.ofList cs.linked := by
  rw [h.program, h.link]
  cases hfind : cs.branchLabels.find? (· ∉ cs.marks) with
  | none =>
    have hall : ∀ l ∈ cs.branchLabels, l ∈ cs.marks := by
      simpa using List.find?_eq_none.1 hfind
    simp only [Except.ok.injEq]
    constructor
    · intro hp
      exact ⟨hall, hp.symm⟩
    · intro hp
      exact hp.2.symm
  | some l =>
    have hl : l ∉ cs.marks := by simpa using List.find?_some hfind
    constructor
    · intro hp
      cases hp
    · intro hp
      exact absurd (hp.1 l (List.mem_of_find?_eq_some hfind)) hl

end Decoding.Reflects

end Whitespace

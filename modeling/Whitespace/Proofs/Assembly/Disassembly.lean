import Mathlib.Data.List.Dedup
import Whitespace.Proofs.Assembly.WellFormed
import Whitespace.Proofs.Source.Numeral

/-!
# Disassembly

A well-formed program can be written back as a source: before each instruction,
and at the end, the labels of the targets with that index are marked, and every
instruction is spelled (`Program.source`).  Assembling this source yields the
program again, so the assembled programs are exactly the well-formed ones
(`exists_source_iff_wellFormed`).
-/

namespace Whitespace

/-! ## Spelling commands -/

namespace Label

/-- The digits that spell a label. -/
def bits (l : Label) : List Bit :=
  l.text.toList.map fun c => if c = 'T' then .one else .zero

theorem ofBits_bits {l : Label} (h : l.Spellable) : ofBits l.bits = l := by
  have hletters : (l.bits.map fun b => b.symbol.letter) = l.text.toList := by
    rw [bits, List.map_map]
    refine (List.map_congr_left fun c hc => ?_).trans (List.map_id _)
    rcases h c hc with rfl | rfl <;> rfl
  rw [ofBits, hletters, String.ofList_toList]

end Label

namespace Instruction

/-- A way to spell a command. -/
def spelling : Command → Spelling
  | push n => .push (Numeral.ofInt64 n)
  | mark l => .label .mark l.bits
  | branch kind l => .label (.branch kind) l.bits
  | op o => .op o

theorem command_spelling {c : Command} (hmark : ∀ l, c.marked? = some l → l.Spellable)
    (hbranch : ∀ l, c.target? = some l → l.Spellable) : (spelling c).command = c := by
  cases c with
  | push n => rw [spelling, Spelling.command, Numeral.value_ofInt64]
  | mark l => rw [spelling, Spelling.command, Label.ofBits_bits (hmark l rfl)]
  | branch kind l => rw [spelling, Spelling.command, Label.ofBits_bits (hbranch l rfl)]
  | op o => rfl

theorem spelling_eq_exit_iff {c : Command} : spelling c = .op .exit ↔ c = .op .exit := by
  cases c <;> simp [spelling]

end Instruction

/-! ## Putting marks back -/

namespace Script

/-- The labels as marks. -/
def ofMarks (ls : List Label) : Script := ls.map .mark

/-- Instructions from an index on with bare labels, and before each of them and
at the end the marks for that place. -/
def interleave (marksAt : Nat → List Label) (i : Nat) : List (Instruction Target) → Script
  | [] => ofMarks (marksAt i)
  | c :: code =>
    ofMarks (marksAt i) ++ c.mapTarget Target.label :: interleave marksAt (i + 1) code

variable {marksAt : Nat → List Label} {i j : Nat} {code body : List (Instruction Target)}
  {l : Label}

@[simp] theorem marks_ofMarks (ls : List Label) : (ofMarks ls).marks = ls := by
  induction ls with
  | nil => rfl
  | cons l ls ih => simpa [ofMarks, marks, Instruction.marked?] using ih

@[simp] theorem slots_ofMarks (ls : List Label) : (ofMarks ls).slots = 0 := by
  induction ls with
  | nil => rfl
  | cons l ls ih => simp [ofMarks, slots, Instruction.isMark]

theorem filter_ofMarks (ls : List Label) : (ofMarks ls).filter (fun c => !c.isMark) = [] := by
  induction ls with
  | nil => rfl
  | cons l ls ih => simp [ofMarks, Instruction.isMark]

theorem marks_cons_of_not_mark {c : Command} (h : c.isMark = false) (cs : Script) :
    marks (c :: cs) = cs.marks := by
  cases c <;> first | rfl | cases h

theorem slots_cons_of_not_mark {c : Command} (h : c.isMark = false) (cs : Script) :
    slots (c :: cs) = cs.slots + 1 := by
  simp [slots, h]

/-- Without its marks the script is the program with bare labels. -/
theorem filter_interleave (h : ∀ c ∈ code, c.isMark = false) (i : Nat) :
    (interleave marksAt i code).filter (fun c => !c.isMark) =
      code.map (Instruction.mapTarget Target.label) := by
  induction code generalizing i with
  | nil => exact filter_ofMarks _
  | cons c code ih =>
    rw [List.forall_mem_cons] at h
    rw [interleave, List.filter_append, filter_ofMarks,
      List.filter_cons_of_pos (by simp [h.1]), ih h.2]
    rfl

theorem marks_interleave_cons {c : Instruction Target} (h : c.isMark = false) :
    marks (interleave marksAt i (c :: code)) =
      marksAt i ++ marks (interleave marksAt (i + 1) code) := by
  rw [interleave, marks_append, marks_ofMarks, marks_cons_of_not_mark (by simpa using h)]

/-- The marks of the script are those of the places from its first index to
behind its last one. -/
theorem mem_marks_interleave (h : ∀ c ∈ code, c.isMark = false) (i : Nat) :
    l ∈ marks (interleave marksAt i code) ↔ ∃ j, i ≤ j ∧ j ≤ i + code.length ∧ l ∈ marksAt j := by
  induction code generalizing i with
  | nil =>
    rw [interleave, marks_ofMarks]
    constructor
    · intro hl
      exact ⟨i, Nat.le_refl i, Nat.le_refl i, hl⟩
    · rintro ⟨j, hij, hji, hl⟩
      rwa [Nat.le_antisymm hij hji]
  | cons c code ih =>
    rw [List.forall_mem_cons] at h
    rw [marks_interleave_cons h.1, List.mem_append, ih h.2, List.length_cons]
    constructor
    · rintro (hl | ⟨j, hij, hji, hl⟩)
      · exact ⟨i, Nat.le_refl i, Nat.le_add_right .., hl⟩
      · exact ⟨j, by omega, by omega, hl⟩
    · rintro ⟨j, hij, hji, hl⟩
      rcases Nat.eq_or_lt_of_le hij with rfl | hlt
      · exact .inl hl
      · exact .inr ⟨j, hlt, by omega, hl⟩

theorem nodup_marks_interleave (h : ∀ c ∈ code, c.isMark = false)
    (hnodup : ∀ j, (marksAt j).Nodup)
    (hplace : ∀ l j k, l ∈ marksAt j → l ∈ marksAt k → j = k) (i : Nat) :
    (marks (interleave marksAt i code)).Nodup := by
  induction code generalizing i with
  | nil =>
    rw [interleave, marks_ofMarks]
    exact hnodup i
  | cons c code ih =>
    rw [List.forall_mem_cons] at h
    rw [marks_interleave_cons h.1, List.nodup_append]
    refine ⟨hnodup i, ih h.2 (i + 1), ?_⟩
    rintro l hl m hm rfl
    obtain ⟨j, hij, -, hj⟩ := (mem_marks_interleave h.2 (i + 1)).1 hm
    have := hplace l i j hl hj
    omega

/-- A label that is marked at one place only stands for that place. -/
theorem address_interleave (h : ∀ c ∈ code, c.isMark = false)
    (hplace : ∀ l j k, l ∈ marksAt j → l ∈ marksAt k → j = k) (hl : l ∈ marksAt j)
    (hij : i ≤ j) (hji : j ≤ i + code.length) :
    address (interleave marksAt i code) l = j - i := by
  induction code generalizing i with
  | nil =>
    have hle := address_le (interleave marksAt i []) l
    rw [interleave, slots_ofMarks] at hle
    rw [List.length_nil] at hji
    rw [interleave]
    omega
  | cons c code ih =>
    rw [List.forall_mem_cons] at h
    have hc : (c.mapTarget Target.label).isMark = false := by simpa using h.1
    rcases Nat.eq_or_lt_of_le hij with rfl | hlt
    · rw [interleave, address_append_of_mem (by simpa using hl)]
      have hle := address_le (ofMarks (marksAt i)) l
      rw [slots_ofMarks] at hle
      omega
    · have hni : l ∉ (ofMarks (marksAt i)).marks := by
        rw [marks_ofMarks]
        intro hi
        have := hplace l i j hi hl
        omega
      have hnc : l ∉ marks [c.mapTarget Target.label] := by
        rw [marks_cons_of_not_mark hc]
        exact List.not_mem_nil
      rw [interleave, address_append_of_notMem hni, slots_ofMarks, Nat.zero_add,
        ← List.singleton_append, address_append_of_notMem hnc, slots_cons_of_not_mark hc,
        ih h.2 hlt (by rw [List.length_cons] at hji; omega)]
      simp only [slots, List.countP_nil]
      omega

theorem interleave_append_singleton (c : Instruction Target) (i : Nat) :
    interleave marksAt i (body ++ [c]) =
      interleave marksAt i body ++
        c.mapTarget Target.label :: ofMarks (marksAt (i + body.length + 1)) := by
  induction body generalizing i with
  | nil => rfl
  | cons b body ih =>
    have hend : i + (b :: body).length + 1 = i + 1 + body.length + 1 := by
      rw [List.length_cons]
      omega
    rw [List.cons_append, interleave, ih, interleave, hend, List.append_assoc, List.cons_append]

theorem exit_mem_interleave (i : Nat) :
    .op .exit ∈ interleave marksAt i code ↔ .op .exit ∈ code := by
  have hmark : ∀ ls, .op .exit ∉ ofMarks ls := by
    intro ls h
    obtain ⟨l, -, heq⟩ := List.mem_map.1 h
    cases heq
  induction code generalizing i with
  | nil => simp [interleave, hmark]
  | cons c code ih =>
    have hc : .op .exit = c.mapTarget Target.label ↔ .op .exit = c := by
      cases c <;> simp [Instruction.mapTarget]
    rw [interleave, List.mem_append, List.mem_cons, List.mem_cons]
    simp only [hmark, false_or]
    exact or_congr hc (ih (i + 1))

end Script

namespace Program

variable {p : Program}

/-- The labels of the targets with an index, each once. -/
def marksAt (p : Program) (i : Nat) : List Label :=
  ((p.targets.filter fun t => t.index = i).map Target.label).dedup

/-- The program with its marks put back. -/
def script (p : Program) : Script := Script.interleave p.marksAt 0 p.toList

def spellings (p : Program) : List Spelling := p.script.map Instruction.spelling

/-- A source of the program. -/
def source (p : Program) : List UInt8 :=
  Source.ofSymbols (p.spellings.flatMap Spelling.symbols)

theorem mem_marksAt {l : Label} {i : Nat} : l ∈ p.marksAt i ↔ ⟨l, i⟩ ∈ p.targets := by
  simp only [marksAt, List.mem_dedup, List.mem_map, List.mem_filter, decide_eq_true_eq]
  constructor
  · rintro ⟨t, ⟨ht, rfl⟩, rfl⟩
    exact ht
  · intro h
    exact ⟨⟨l, i⟩, ⟨h, rfl⟩, rfl⟩

namespace WellFormed

/-- A label is put back at one place. -/
theorem place_eq (h : p.WellFormed) (l : Label) (j k : Nat) (hj : l ∈ p.marksAt j)
    (hk : l ∈ p.marksAt k) : j = k :=
  h.index_eq ⟨l, j⟩ (mem_marksAt.1 hj) ⟨l, k⟩ (mem_marksAt.1 hk) rfl

theorem nodup_marks_script (h : p.WellFormed) : p.script.marks.Nodup :=
  Script.nodup_marks_interleave h.no_mark (fun _ => List.nodup_dedup _) h.place_eq 0

theorem mem_marks_script (h : p.WellFormed) {t : Target} (ht : t ∈ p.targets) :
    t.label ∈ p.script.marks := by
  rw [script, Script.mem_marks_interleave h.no_mark]
  refine ⟨t.index, Nat.zero_le _, ?_, mem_marksAt.2 ht⟩
  rw [Nat.zero_add]
  exact h.index_le t ht

/-- The marks lead back to the targets. -/
theorem target_script (h : p.WellFormed) {t : Target} (ht : t ∈ p.targets) :
    p.script.target t.label = t := by
  have hle : t.index ≤ 0 + p.toList.length := by
    rw [Nat.zero_add]
    exact h.index_le t ht
  have haddress := Script.address_interleave h.no_mark h.place_eq (mem_marksAt.2 ht)
    (Nat.zero_le _) hle
  rw [Script.target, script, haddress]
  rfl

theorem branchLabels_script (h : p.WellFormed) :
    p.script.branchLabels = p.targets.map Target.label := by
  rw [← Script.branchLabels_filter, script, Script.filter_interleave h.no_mark,
    Script.branchLabels, List.filterMap_map, targets, List.map_filterMap]
  simp

theorem linked_script (h : p.WellFormed) : p.script.linked = p.toList := by
  rw [Script.linked, script, Script.filter_interleave h.no_mark, List.map_map]
  refine (List.map_congr_left fun c hc => ?_).trans (List.map_id _)
  cases c with
  | branch kind t =>
    have ht : t ∈ p.targets := List.mem_filterMap.2 ⟨.branch kind t, hc, rfl⟩
    exact congrArg (Instruction.branch kind) (h.target_script ht)
  | _ => rfl

theorem command_spelling (h : p.WellFormed) {c : Command} (hc : c ∈ p.script) :
    (Instruction.spelling c).command = c := by
  apply Instruction.command_spelling
  · intro l hl
    have hmem : l ∈ p.script.marks := List.mem_filterMap.2 ⟨c, hc, hl⟩
    rw [script, Script.mem_marks_interleave h.no_mark] at hmem
    obtain ⟨j, -, -, hj⟩ := hmem
    exact h.spellable ⟨l, j⟩ (mem_marksAt.1 hj)
  · intro l hl
    have hmem : l ∈ p.script.branchLabels := List.mem_filterMap.2 ⟨c, hc, hl⟩
    rw [h.branchLabels_script] at hmem
    obtain ⟨t, ht, rfl⟩ := List.mem_map.1 hmem
    exact h.spellable t ht

theorem ofSpellings_spellings (h : p.WellFormed) : Script.ofSpellings p.spellings = p.script := by
  rw [Script.ofSpellings, spellings, List.map_map]
  exact (List.map_congr_left fun c hc => h.command_spelling hc).trans (List.map_id _)

/-- No mark is put back behind an exit. -/
theorem exit_last_script (h : p.WellFormed) :
    .op .exit ∉ p.script ∨ ∃ body, p.script = body ++ [.op .exit] ∧ .op .exit ∉ body := by
  have hlast : ∀ i, p.toList[i]? = some (.op .exit) → i + 1 = p.toList.length := by
    simpa only [get?_eq_getElem?, size_eq_length] using h.exit_last
  rcases only_last_iff.1 hlast with hopen | ⟨body, hbody, hopen⟩
  · left
    intro hmem
    exact hopen ((Script.exit_mem_interleave 0).1 hmem)
  · refine .inr ⟨Script.interleave p.marksAt 0 body, ?_,
      fun hmem => hopen ((Script.exit_mem_interleave 0).1 hmem)⟩
    have hnone : p.marksAt (0 + body.length + 1) = [] := by
      apply List.eq_nil_iff_forall_not_mem.2
      intro l hl
      have hlt : 0 + body.length + 1 < p.size :=
        h.index_lt (by rw [hbody]; simp) _ (mem_marksAt.1 hl)
      rw [size_eq_length, hbody, List.length_append, List.length_singleton] at hlt
      omega
    rw [script, hbody, Script.interleave_append_singleton, hnone]
    rfl

theorem spells_source (h : p.WellFormed) : Spells p.source p.spellings := by
  refine ⟨?_, ?_⟩
  · rw [h.ofSpellings_spellings]
    exact h.nodup_marks_script
  · rw [source, Source.symbols_ofSymbols]
    have hmem : ∀ cs : Script, .op .exit ∉ cs → .op .exit ∉ cs.map Instruction.spelling := by
      intro cs hcs hmem
      obtain ⟨c, hc, heq⟩ := List.mem_map.1 hmem
      exact hcs (Instruction.spelling_eq_exit_iff.1 heq ▸ hc)
    rcases h.exit_last_script with hopen | ⟨body, hbody, hopen⟩
    · exact .inl ⟨hmem _ hopen, rfl⟩
    · refine .inr ⟨body.map Instruction.spelling, [], ?_, hmem body hopen, by simp⟩
      rw [spellings, hbody, List.map_append]
      rfl

/-- **Disassembly is undone by assembly.** -/
theorem assemble_source (h : p.WellFormed) : assemble p.source = .ok p := by
  refine assemble_eq_ok_iff.2 ⟨p.spellings, h.spells_source, ?_, ?_⟩
  · rw [h.ofSpellings_spellings, h.branchLabels_script]
    intro l hl
    obtain ⟨t, ht, rfl⟩ := List.mem_map.1 hl
    exact h.mem_marks_script ht
  · rw [h.ofSpellings_spellings, h.linked_script, ofList_toList]

end WellFormed

end Program

/-- **The assembled programs are exactly the well-formed ones.** -/
theorem exists_source_iff_wellFormed (p : Program) :
    (∃ source, assemble source = .ok p) ↔ p.WellFormed := by
  constructor
  · rintro ⟨source, h⟩
    exact wellFormed_of_assemble h
  · intro h
    exact ⟨p.source, h.assemble_source⟩

end Whitespace

import Whitespace.Proofs.Assembly.Disassembly
import Whitespace.Proofs.Assembly.LabelErrors

/-!
# Renaming labels

A label is looked up and never looked into: linking asks whether two labels are the same,
and an injective renaming does not change the answer.  So the linked script of renamed
commands is the linked script with renamed labels (`Script.linked_relabel`), and a label
that is marked again or missing is so under its new name (`assemble_rename`).
-/

namespace Whitespace

open Source

namespace Label

variable {r : List Bit → List Bit}

instance (l : Label) : Decidable l.Spellable :=
  List.decidableBAll (fun c => c = 'S' ∨ c = 'T') l.text.toList

@[simp] theorem bits_ofBits (bits : List Bit) : (ofBits bits).bits = bits :=
  ofBits_injective (ofBits_bits (spellable_ofBits bits))

/-- Renames the labels that can be spelled, and leaves any other one as it is. -/
def rename (r : List Bit → List Bit) (l : Label) : Label :=
  if l.Spellable then ofBits (r l.bits) else l

@[simp] theorem rename_ofBits (r : List Bit → List Bit) (bits : List Bit) :
    (ofBits bits).rename r = ofBits (r bits) := by
  rw [rename, if_pos (spellable_ofBits bits), bits_ofBits]

theorem rename_of_not_spellable {l : Label} (h : ¬ l.Spellable) : l.rename r = l := if_neg h

theorem spellable_rename_iff {l : Label} : (l.rename r).Spellable ↔ l.Spellable := by
  by_cases h : l.Spellable
  · rw [rename, if_pos h]
    exact iff_of_true (spellable_ofBits _) h
  · rw [rename_of_not_spellable h]

theorem rename_injective (hr : Function.Injective r) : Function.Injective (rename r) := by
  intro l m h
  have hspellable : l.Spellable ↔ m.Spellable := by
    rw [← spellable_rename_iff (r := r), h, spellable_rename_iff]
  by_cases hl : l.Spellable
  · have hm := hspellable.1 hl
    rw [← ofBits_bits hl, ← ofBits_bits hm, rename_ofBits, rename_ofBits] at h
    rw [← ofBits_bits hl, ← ofBits_bits hm, hr (ofBits_injective h)]
  · rwa [rename_of_not_spellable hl, rename_of_not_spellable fun hm => hl (hspellable.2 hm)] at h

end Label

def Target.relabel (ρ : Label → Label) (t : Target) : Target := ⟨ρ t.label, t.index⟩

namespace Instruction

variable {α β : Type} {ρ : Label → Label} {f : α → β}

/-- Renames the label of a mark, and replaces what a branch carries. -/
def relabel (ρ : Label → Label) (f : α → β) : Instruction α → Instruction β
  | push n => push n
  | mark l => mark (ρ l)
  | branch kind target => branch kind (f target)
  | op o => op o

@[simp] theorem isMark_relabel (i : Instruction α) : (i.relabel ρ f).isMark = i.isMark := by
  cases i <;> rfl

@[simp] theorem marked?_relabel (i : Instruction α) :
    (i.relabel ρ f).marked? = i.marked?.map ρ := by
  cases i <;> rfl

@[simp] theorem target?_relabel (i : Instruction α) :
    (i.relabel ρ f).target? = i.target?.map f := by
  cases i <;> rfl

theorem relabel_eq_mark_iff (hρ : Function.Injective ρ) {i : Instruction α} {l : Label} :
    i.relabel ρ f = mark (ρ l) ↔ i = mark l := by
  cases i <;> simp [relabel, hρ.eq_iff]

end Instruction

/-- The program with every label renamed. -/
def Program.relabel (ρ : Label → Label) (p : Program) : Program :=
  ofList (p.toList.map (Instruction.relabel ρ (Target.relabel ρ)))

/-! ## Scripts -/

namespace Script

/-- The script with every label renamed. -/
def relabel (ρ : Label → Label) (cs : Script) : Script := cs.map (Instruction.relabel ρ ρ)

variable {ρ : Label → Label}

theorem marks_relabel (cs : Script) : (cs.relabel ρ).marks = cs.marks.map ρ := by
  simp only [marks, relabel, List.filterMap_map, List.map_filterMap, Function.comp_def,
    Instruction.marked?_relabel]

theorem branchLabels_relabel (cs : Script) :
    (cs.relabel ρ).branchLabels = cs.branchLabels.map ρ := by
  simp only [branchLabels, relabel, List.filterMap_map, List.map_filterMap, Function.comp_def,
    Instruction.target?_relabel]

theorem slotAt_relabel (cs : Script) (i : Nat) : (cs.relabel ρ).slotAt i = cs.slotAt i := by
  simp only [slotAt, slots, relabel, ← List.map_take, List.countP_map, Function.comp_def,
    Instruction.isMark_relabel]

section

variable (hρ : Function.Injective ρ)

include hρ

theorem mem_marks_relabel {cs : Script} {l : Label} :
    ρ l ∈ (cs.relabel ρ).marks ↔ l ∈ cs.marks := by
  rw [marks_relabel, List.mem_map_of_injective hρ]

theorem nodup_marks_relabel {cs : Script} : (cs.relabel ρ).marks.Nodup ↔ cs.marks.Nodup := by
  rw [marks_relabel, List.nodup_map_iff hρ]

theorem find?_branchLabels_relabel (cs : Script) :
    (cs.relabel ρ).branchLabels.find? (· ∉ (cs.relabel ρ).marks) =
      (cs.branchLabels.find? (· ∉ cs.marks)).map ρ := by
  rw [branchLabels_relabel, List.find?_map]
  simp only [Function.comp_def, mem_marks_relabel hρ]

/-- A mark stands where it stood. -/
theorem idxOf_relabel (cs : Script) (l : Label) :
    (cs.relabel ρ).idxOf (.mark (ρ l)) = cs.idxOf (.mark l) := by
  induction cs with
  | nil => rfl
  | cons c cs ih =>
    have hcons : relabel ρ (c :: cs) = c.relabel ρ ρ :: relabel ρ cs := rfl
    by_cases hc : c = .mark l
    · subst hc
      rw [hcons, List.idxOf_cons_self]
      exact List.idxOf_cons_self
    · have hc' : c.relabel ρ ρ ≠ .mark (ρ l) := mt (Instruction.relabel_eq_mark_iff hρ).1 hc
      rw [hcons, List.idxOf_cons_ne _ hc, List.idxOf_cons_ne _ hc', ih]

theorem target_relabel (cs : Script) (l : Label) :
    (cs.relabel ρ).target (ρ l) = (cs.target l).relabel ρ := by
  rw [target, address, idxOf_relabel hρ, slotAt_relabel]
  rfl

/-- **Linking goes along with an injective renaming.** -/
theorem linked_relabel (cs : Script) :
    (cs.relabel ρ).linked = cs.linked.map (Instruction.relabel ρ (Target.relabel ρ)) := by
  have hfilter : (cs.relabel ρ).filter (fun c => !c.isMark) =
      (cs.filter fun c => !c.isMark).map (Instruction.relabel ρ ρ) := by
    rw [relabel, List.filter_map]
    simp only [Function.comp_def, Instruction.isMark_relabel]
  rw [linked, linked, hfilter, List.map_map, List.map_map]
  refine List.map_congr_left fun c _ => ?_
  cases c with
  | push _ | mark _ | op _ => rfl
  | branch kind l => exact congrArg (Instruction.branch kind) (target_relabel hρ cs l)

end

end Script

/-! ## Sources -/

namespace Spelling

variable {r : List Bit → List Bit}

/-- Rewrites the label of a mark or a branch. -/
def rename (r : List Bit → List Bit) : Spelling → Spelling
  | push n => push n
  | label use digits => label use (r digits)
  | op o => op o

theorem command_rename (r : List Bit → List Bit) (c : Spelling) :
    (c.rename r).command = c.command.relabel (Label.rename r) (Label.rename r) := by
  rcases c with n | ⟨_ | kind, digits⟩ | o
  · rfl
  · exact congrArg Instruction.mark (Label.rename_ofBits r digits).symm
  · exact congrArg (Instruction.branch kind) (Label.rename_ofBits r digits).symm
  · rfl

theorem rename_eq_exit_iff {c : Spelling} : c.rename r = .op .exit ↔ c = .op .exit := by
  cases c <;> simp [rename]

theorem exit_mem_map_rename {cs : List Spelling} :
    .op .exit ∈ cs.map (rename r) ↔ .op .exit ∈ cs := by
  simp only [List.mem_map, rename_eq_exit_iff, exists_eq_right]

end Spelling

theorem Script.ofSpellings_map_rename (r : List Bit → List Bit) (cs : List Spelling) :
    ofSpellings (cs.map (Spelling.rename r)) = (ofSpellings cs).relabel (Label.rename r) := by
  rw [ofSpellings, ofSpellings, relabel, List.map_map, List.map_map]
  exact List.map_congr_left fun c _ => Spelling.command_rename r c

/-- What comes of a source and of the source with renamed labels. -/
inductive Renamed (ρ : Label → Label) :
    Except AssemblyError Program → Except AssemblyError Program → Prop
  | ok (p : Program) : Renamed ρ (.ok p) (.ok (p.relabel ρ))
  | duplicateLabel (l : Label) :
      Renamed ρ (.error (.duplicateLabel l)) (.error (.duplicateLabel (ρ l)))
  | labelNotFound (l : Label) :
      Renamed ρ (.error (.labelNotFound l)) (.error (.labelNotFound (ρ l)))

section

variable {r : List Bit → List Bit} {cs : List Spelling} {s s' : List UInt8}

/-- Nothing is marked twice: both sources are decoded to their end or their exit. -/
theorem Spells.renamed (hr : Function.Injective r) (h : Spells s cs)
    (h' : Spells s' (cs.map (Spelling.rename r))) :
    Renamed (Label.rename r) (assemble s) (assemble s') := by
  have hρ := Label.rename_injective hr
  rw [h.assemble_eq, h'.assemble_eq, Script.ofSpellings_map_rename,
    Script.find?_branchLabels_relabel hρ, Script.linked_relabel hρ]
  cases (Script.ofSpellings cs).branchLabels.find? (· ∉ (Script.ofSpellings cs).marks) with
  | none => exact .ok _
  | some l => exact .labelNotFound l

/-- A label is marked twice before any exit, and both sources are refused for the first one. -/
theorem renamed_of_not_nodup (hr : Function.Injective r) (hopen : .op .exit ∉ cs)
    (hcs : ¬ (Script.ofSpellings cs).marks.Nodup) {w w' : List Symbol}
    (h : symbols s = cs.flatMap Spelling.symbols ++ w)
    (h' : symbols s' = (cs.map (Spelling.rename r)).flatMap Spelling.symbols ++ w') :
    Renamed (Label.rename r) (assemble s) (assemble s') := by
  obtain ⟨before, bits, after, rfl, hbefore, hl⟩ := exists_first_again hopen hcs
  have hρ := Label.rename_injective hr
  have hbefore' : Passed (before.map (Spelling.rename r)) := by
    refine ⟨fun hexit => hbefore.notMem (Spelling.exit_mem_map_rename.1 hexit), ?_⟩
    rw [Script.ofSpellings_map_rename, Script.nodup_marks_relabel hρ]
    exact hbefore.nodup
  have hl' : Label.ofBits (r bits) ∈
      (Script.ofSpellings (before.map (Spelling.rename r))).marks := by
    rw [Script.ofSpellings_map_rename, ← Label.rename_ofBits, Script.mem_marks_relabel hρ]
    exact hl
  rw [List.flatMap_append, List.flatMap_cons, List.append_assoc, List.append_assoc] at h
  rw [List.map_append, List.map_cons, List.flatMap_append, List.flatMap_cons, List.append_assoc,
    List.append_assoc] at h'
  rw [assemble_of_again hbefore hl h, assemble_of_again hbefore' hl' h', ← Label.rename_ofBits]
  exact .duplicateLabel _

/-- **Assembling goes along with an injective renaming** of the labels in a sequence of
commands, exits among them or not. -/
theorem assemble_rename (hr : Function.Injective r) (h : symbols s = cs.flatMap Spelling.symbols)
    (h' : symbols s' = (cs.map (Spelling.rename r)).flatMap Spelling.symbols) :
    Renamed (Label.rename r) (assemble s) (assemble s') := by
  obtain ⟨body, tail, rfl, hopen, htail⟩ : ∃ body tail, cs = body ++ tail ∧ .op .exit ∉ body ∧
      (tail = [] ∨ ∃ rest, tail = .op .exit :: rest) := by
    by_cases hexit : .op .exit ∈ cs
    · obtain ⟨body, rest, rfl, hopen⟩ := List.eq_append_cons_of_mem hexit
      exact ⟨body, _, rfl, hopen, .inr ⟨rest, rfl⟩⟩
    · exact ⟨cs, [], (List.append_nil cs).symm, hexit, .inl rfl⟩
  rw [List.flatMap_append] at h
  rw [List.map_append, List.flatMap_append] at h'
  by_cases hnd : (Script.ofSpellings body).marks.Nodup
  · have hopen' : .op .exit ∉ body.map (Spelling.rename r) :=
      mt Spelling.exit_mem_map_rename.1 hopen
    have hnd' : (Script.ofSpellings (body.map (Spelling.rename r))).marks.Nodup := by
      rw [Script.ofSpellings_map_rename, Script.nodup_marks_relabel (Label.rename_injective hr)]
      exact hnd
    rcases htail with rfl | ⟨rest, rfl⟩
    · rw [List.flatMap_nil, List.append_nil] at h
      rw [List.map_nil, List.flatMap_nil, List.append_nil] at h'
      exact Spells.renamed hr ⟨hnd, .inl ⟨hopen, h⟩⟩ ⟨hnd', .inl ⟨hopen', h'⟩⟩
    · have hs' := Spells.of_exit hopen' hnd' h'
      refine Spells.renamed hr (Spells.of_exit hopen hnd h) ?_
      rwa [List.map_append]
  · exact renamed_of_not_nodup hr hopen hnd h h'

end

end Whitespace

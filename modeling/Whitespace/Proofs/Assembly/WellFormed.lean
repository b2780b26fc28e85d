import Whitespace.Proofs.Assembly.Grammar

/-!
# Well-formed programs

What every assembled program has (`wellFormed_of_assemble`): no marks, no exit but
the last instruction, labels of `S` and `T`, one index for each label, and no
index that leads further than behind the last instruction.  An exit keeps even
that place out of reach, because nothing behind it is decoded.
-/

namespace Whitespace

/-- A label that can be spelled. -/
def Label.Spellable (l : Label) : Prop := ∀ c ∈ l.text.toList, c = 'S' ∨ c = 'T'

theorem Label.spellable_ofBits (bits : List Bit) : (ofBits bits).Spellable := by
  intro c hc
  simp only [ofBits, String.toList_ofList, List.mem_map] at hc
  obtain ⟨b, -, rfl⟩ := hc
  cases b
  · exact .inl rfl
  · exact .inr rfl

namespace Program

def targets (p : Program) : List Target := p.toList.filterMap Instruction.target?

/-- What assembling can yield. -/
structure WellFormed (p : Program) : Prop where
  no_mark : ∀ i ∈ p.toList, i.isMark = false
  exit_last : ∀ i, p.get? i = some (.op .exit) → i + 1 = p.size
  /-- Labels are words of `S` and `T`. -/
  spellable : ∀ t ∈ p.targets, t.label.Spellable
  /-- A label has one index. -/
  index_eq : ∀ t ∈ p.targets, ∀ u ∈ p.targets, t.label = u.label → t.index = u.index
  /-- A target is an instruction or the end of the program. -/
  index_le : ∀ t ∈ p.targets, t.index ≤ p.size
  /-- The end of the program is no target if it comes behind an exit. -/
  index_lt : p.toList.getLast? = some (.op .exit) → ∀ t ∈ p.targets, t.index < p.size

end Program

/-- An element that can only be the last one splits its list. -/
theorem only_last_iff {α : Type} {x : α} {l : List α} :
    (∀ i, l[i]? = some x → i + 1 = l.length) ↔
      x ∉ l ∨ ∃ body, l = body ++ [x] ∧ x ∉ body := by
  constructor
  · intro h
    by_cases hx : x ∈ l
    · obtain ⟨body, rest, rfl, hbody⟩ := List.eq_append_cons_of_mem hx
      have hlast := h body.length (by simp)
      have hrest : rest = [] := by
        rw [List.length_append, List.length_cons] at hlast
        exact List.length_eq_zero_iff.1 (by omega)
      exact .inr ⟨body, by rw [hrest], hbody⟩
    · exact .inl hx
  · rintro (hx | ⟨body, rfl, hbody⟩) i hi
    · exact absurd (List.mem_of_getElem? hi) hx
    · rcases Nat.lt_or_ge i body.length with hlt | hge
      · rw [List.getElem?_append_left hlt] at hi
        exact absurd (List.mem_of_getElem? hi) hbody
      · have hi' := (List.getElem?_eq_some_iff.1 hi).1
        rw [List.length_append, List.length_singleton] at hi' ⊢
        omega

namespace Script

variable {cs body : Script} {l : Label}

theorem mem_linked_exit : .op .exit ∈ cs.linked ↔ .op .exit ∈ cs := by
  simp only [linked, List.mem_map, List.mem_filter]
  constructor
  · rintro ⟨c, ⟨hc, -⟩, heq⟩
    cases c <;> cases heq
    exact hc
  · intro h
    exact ⟨.op .exit, ⟨h, rfl⟩, rfl⟩

theorem exit_mem_ofSpellings {sp : List Spelling} :
    .op .exit ∈ ofSpellings sp ↔ .op .exit ∈ sp := by
  constructor
  · intro h
    obtain ⟨c, hc, heq⟩ := List.mem_map.1 h
    rcases c with n | ⟨_ | kind, digits⟩ | o
    · cases heq
    · cases heq
    · cases heq
    · cases heq
      exact hc
  · intro h
    exact List.mem_map.2 ⟨.op .exit, h, rfl⟩

theorem targets_linked (cs : Script) :
    (Program.ofList cs.linked).targets = cs.branchLabels.map cs.target := by
  rw [Program.targets, Program.toList_ofList, linked, List.filterMap_map,
    ← branchLabels_filter, branchLabels, List.map_filterMap]
  simp

/-- A label that is marked before an exit stands for an instruction. -/
theorem address_lt_of_exit (h : l ∈ body.marks) :
    address (body ++ [.op .exit]) l < slots (body ++ [.op .exit]) := by
  rw [address_append_of_mem h, slots_append]
  exact Nat.lt_succ_of_le (body.address_le l)

/-- The exit of a script is the last instruction of the linked script. -/
theorem exit_last_linked
    (h : .op .exit ∉ cs ∨ ∃ body, cs = body ++ [.op .exit] ∧ .op .exit ∉ body) :
    .op .exit ∉ cs.linked ∨ ∃ code, cs.linked = code ++ [.op .exit] ∧ .op .exit ∉ code := by
  rcases h with h | ⟨body, rfl, h⟩
  · left
    intro hmem
    exact h (mem_linked_exit.1 hmem)
  · refine .inr ⟨(body.filter fun c => !c.isMark).map
      (Instruction.mapTarget (target (body ++ [.op .exit]))), ?_, ?_⟩
    · rw [linked, List.filter_append, List.map_append]
      rfl
    · intro hmem
      obtain ⟨c, hc, heq⟩ := List.mem_map.1 hmem
      cases c <;> cases heq
      exact h (List.mem_filter.1 hc).1

end Script

namespace Spells

variable {source : List UInt8} {cs : List Spelling}

/-- Nothing is decoded behind an exit. -/
theorem exit_last (h : Spells source cs) :
    .op .exit ∉ Script.ofSpellings cs ∨
      ∃ body, Script.ofSpellings cs = body ++ [.op .exit] ∧ .op .exit ∉ body := by
  rcases h.2 with ⟨hopen, -⟩ | ⟨body, rest, rfl, hopen, -⟩
  · left
    intro hexit
    exact hopen (Script.exit_mem_ofSpellings.1 hexit)
  · exact .inr ⟨Script.ofSpellings body, by simp [Script.ofSpellings, Spelling.command],
      fun h => hopen (Script.exit_mem_ofSpellings.1 h)⟩

theorem spellable_of_mem_branchLabels {l : Label}
    (h : l ∈ (Script.ofSpellings cs).branchLabels) : l.Spellable := by
  obtain ⟨c, hc, hl⟩ := List.mem_filterMap.1 h
  obtain ⟨sp, -, rfl⟩ := List.mem_map.1 hc
  rcases sp with n | ⟨_ | kind, digits⟩ | o
  · cases hl
  · cases hl
  · cases hl
    exact Label.spellable_ofBits digits
  · cases hl

end Spells

/-- **Assembled programs are well-formed.** -/
theorem wellFormed_of_assemble {source : List UInt8} {p : Program}
    (h : assemble source = .ok p) : p.WellFormed := by
  obtain ⟨sp, hsp, hmarked, rfl⟩ := assemble_eq_ok_iff.1 h
  generalize hcs : Script.ofSpellings sp = cs at hmarked
  have hexit := hsp.exit_last
  rw [hcs] at hexit
  have htargets : ∀ t ∈ (Program.ofList cs.linked).targets,
      ∃ l ∈ cs.branchLabels, t = cs.target l := by
    intro t ht
    rw [Script.targets_linked] at ht
    obtain ⟨l, hl, rfl⟩ := List.mem_map.1 ht
    exact ⟨l, hl, rfl⟩
  have hsize : (Program.ofList cs.linked).size = cs.slots := by
    rw [Program.size_eq_length, Program.toList_ofList, Script.length_linked]
  refine ⟨?_, ?_, ?_, ?_, ?_, ?_⟩
  · intro i hi
    obtain ⟨c, hc, rfl⟩ := List.mem_map.1 hi
    simpa using (List.mem_filter.1 hc).2
  · simp only [Program.get?_eq_getElem?, Program.size_eq_length, Program.toList_ofList]
    exact only_last_iff.2 (Script.exit_last_linked hexit)
  · intro t ht
    obtain ⟨l, hl, rfl⟩ := htargets t ht
    exact Spells.spellable_of_mem_branchLabels (hcs ▸ hl)
  · intro t ht u hu heq
    obtain ⟨l, -, rfl⟩ := htargets t ht
    obtain ⟨m, -, rfl⟩ := htargets u hu
    exact congrArg cs.address heq
  · intro t ht
    obtain ⟨l, -, rfl⟩ := htargets t ht
    rw [hsize]
    exact cs.address_le l
  · intro hlast t ht
    obtain ⟨l, hl, rfl⟩ := htargets t ht
    rw [hsize]
    rcases hexit with hopen | ⟨body, rfl, -⟩
    · have := Script.mem_linked_exit.1 (List.mem_of_getLast? hlast)
      exact absurd this hopen
    · have hmem := hmarked l hl
      rw [Script.marks_append, List.mem_append] at hmem
      exact Script.address_lt_of_exit (hmem.resolve_right List.not_mem_nil)

end Whitespace

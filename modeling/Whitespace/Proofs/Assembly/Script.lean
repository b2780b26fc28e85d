import Mathlib.Data.List.Nodup
import Whitespace.Proofs.Code

/-!
# Scripts

A script is a sequence of commands with its marks in place and bare labels in its
branches.  Linking numbers the commands that are no marks: `slotAt` is the number
of instructions before a place, `address` the one before a label's mark, and
`linked` the instructions with these numbers in their branches.
-/

namespace Whitespace

/-- An element that is picked out of a list stands somewhere in the list, behind those that
are picked before it. -/
theorem exists_of_filterMap_eq_append_cons {α β : Type} {f : α → Option β} {as : List α}
    {before after : List β} {b : β} (h : as.filterMap f = before ++ b :: after) :
    ∃ us a vs, as = us ++ a :: vs ∧ f a = some b ∧ us.filterMap f = before := by
  obtain ⟨us, zs, rfl, rfl, hzs⟩ := List.filterMap_eq_append_iff.1 h
  obtain ⟨ys, a, vs, rfl, hys, ha, -⟩ := List.filterMap_eq_cons_iff.1 hzs
  refine ⟨us ++ ys, a, vs, (List.append_assoc ..).symm, ha, ?_⟩
  rw [List.filterMap_append, List.filterMap_eq_nil_iff.2 hys, List.append_nil]

namespace Instruction

variable {α β : Type}

/-- The label that a mark names. -/
def marked? : Instruction α → Option Label
  | mark l => some l
  | _ => none

def target? : Instruction α → Option α
  | branch _ t => some t
  | _ => none

theorem marked?_eq_some_iff {i : Instruction α} {l : Label} :
    i.marked? = some l ↔ i = mark l := by
  cases i <;> simp [marked?]

@[simp] theorem target?_mapTarget (f : α → β) (i : Instruction α) :
    (i.mapTarget f).target? = i.target?.map f := by
  cases i <;> rfl

theorem target?_of_isMark {i : Instruction α} (h : i.isMark = true) : i.target? = none := by
  cases i with
  | mark l => rfl
  | _ => cases h

theorem isMark_iff {i : Instruction α} : i.isMark = true ↔ ∃ l, i = mark l := by
  cases i <;> simp [isMark]

end Instruction

/-- A sequence of commands, marks in place. -/
abbrev Script := List Command

namespace Script

/-- The labels that are marked, in order. -/
def marks (cs : Script) : List Label := cs.filterMap Instruction.marked?

/-- The labels that branches carry, in order. -/
def branchLabels (cs : Script) : List Label := cs.filterMap Instruction.target?

/-- The number of instructions: of commands that are no marks. -/
def slots (cs : Script) : Nat := cs.countP fun c => !c.isMark

/-- The number of instructions before a place. -/
def slotAt (cs : Script) (i : Nat) : Nat := slots (cs.take i)

/-- The number of instructions before the mark of a label. -/
def address (cs : Script) (l : Label) : Nat := cs.slotAt (cs.idxOf (.mark l))

/-- What a label is linked to. -/
def target (cs : Script) (l : Label) : Target := ⟨l, cs.address l⟩

/-- The instructions that remain when the marks are gone. -/
def linked (cs : Script) : List (Instruction Target) :=
  (cs.filter fun c => !c.isMark).map (Instruction.mapTarget cs.target)

variable {cs ds : Script} {c : Command} {l : Label} {i : Nat}

theorem mem_marks : l ∈ cs.marks ↔ .mark l ∈ cs := by
  simp [marks, List.mem_filterMap, Instruction.marked?_eq_some_iff]

@[simp] theorem marks_append : marks (cs ++ ds) = cs.marks ++ ds.marks :=
  List.filterMap_append

theorem marks_concat_mark (cs : Script) (l : Label) : marks (cs ++ [.mark l]) = cs.marks ++ [l] :=
  marks_append

theorem marks_concat_of_not_mark (cs : Script) (hc : c.isMark = false) :
    marks (cs ++ [c]) = cs.marks := by
  cases c with
  | mark l => cases hc
  | _ => exact marks_append.trans (List.append_nil _)

/-- One more command marks no label twice unless it marks one that was marked before. -/
theorem nodup_marks_concat_iff :
    (marks (cs ++ [c])).Nodup ↔ cs.marks.Nodup ∧ ∀ l, c = .mark l → l ∉ cs.marks := by
  cases hc : c.isMark with
  | false =>
    rw [marks_concat_of_not_mark cs hc]
    refine ⟨fun h => ⟨h, ?_⟩, And.left⟩
    rintro l rfl
    cases hc
  | true =>
    obtain ⟨l, rfl⟩ := Instruction.isMark_iff.1 hc
    rw [marks_concat_mark, ← List.concat_eq_append, List.nodup_concat]
    constructor
    · rintro ⟨hl, hnd⟩
      refine ⟨hnd, ?_⟩
      rintro m hm
      cases hm
      exact hl
    · rintro ⟨hnd, hl⟩
      exact ⟨hl l rfl, hnd⟩

theorem exists_mark_of_not_nodup (hcs : cs.marks.Nodup) (h : ¬ (marks (cs ++ [c])).Nodup) :
    ∃ l, c = .mark l ∧ l ∈ cs.marks := by
  by_contra hnew
  push Not at hnew
  exact h (nodup_marks_concat_iff.2 ⟨hcs, hnew⟩)

@[simp] theorem branchLabels_append :
    branchLabels (cs ++ ds) = cs.branchLabels ++ ds.branchLabels :=
  List.filterMap_append

theorem branchLabels_cons (c : Command) (cs : Script) :
    branchLabels (c :: cs) = c.target?.toList ++ cs.branchLabels := by
  cases c <;> rfl

/-- Marks carry no branch label. -/
theorem branchLabels_filter (cs : Script) :
    branchLabels (cs.filter fun c => !c.isMark) = cs.branchLabels := by
  rw [branchLabels, List.filterMap_filter]
  refine List.filterMap_congr fun c _ => ?_
  cases hc : c.isMark with
  | false => rfl
  | true => simpa using (Instruction.target?_of_isMark hc).symm

@[simp] theorem slots_append : slots (cs ++ ds) = cs.slots + ds.slots :=
  List.countP_append

theorem slots_singleton (c : Command) : slots [c] = if c.isMark then 0 else 1 := by
  cases c <;> rfl

/-! ## Places and slots -/

theorem slotAt_of_length_le (h : cs.length ≤ i) : cs.slotAt i = cs.slots := by
  rw [slotAt, List.take_of_length_le h]

theorem slotAt_succ (h : cs[i]? = some c) :
    cs.slotAt (i + 1) = cs.slotAt i + if c.isMark then 0 else 1 := by
  rw [slotAt, List.take_add_one, h, Option.toList_some, slots_append, slots_singleton]
  rfl

theorem slotAt_le (cs : Script) (i : Nat) : cs.slotAt i ≤ cs.slots := by
  have hsplit : cs.slotAt i + slots (cs.drop i) = cs.slots := by
    rw [slotAt, ← slots_append, List.take_append_drop]
  omega

theorem slotAt_append_of_le (h : i ≤ cs.length) : slotAt (cs ++ ds) i = cs.slotAt i := by
  rw [slotAt, List.take_append_of_le_length h]
  rfl

/-! ## Addresses -/

theorem address_append_of_mem (h : l ∈ cs.marks) : address (cs ++ ds) l = cs.address l := by
  rw [mem_marks] at h
  rw [address, List.idxOf_append_of_mem h, slotAt_append_of_le (List.idxOf_le_length ..)]
  rfl

theorem address_append_of_notMem (h : l ∉ cs.marks) (ds : Script) :
    address (cs ++ ds) l = cs.slots + ds.address l := by
  rw [mem_marks] at h
  rw [address, List.idxOf_append_of_notMem h, slotAt, List.take_length_add_append, slots_append]
  rfl

theorem address_append_mark (h : l ∉ cs.marks) : address (cs ++ [.mark l]) l = cs.slots := by
  rw [mem_marks] at h
  rw [address, List.idxOf_append_of_notMem h, List.idxOf_cons_self, slotAt_append_of_le (by omega),
    slotAt_of_length_le (by omega)]

theorem address_le (cs : Script) (l : Label) : cs.address l ≤ cs.slots := cs.slotAt_le _

/-- Behind the mark of a label comes what the label stands for. -/
theorem slotAt_idxOf_succ (cs : Script) (l : Label) :
    cs.slotAt (cs.idxOf (.mark l) + 1) = cs.address l := by
  by_cases h : .mark l ∈ cs
  · have hlt := List.idxOf_lt_length_iff.2 h
    have hget : cs[cs.idxOf (.mark l)]? = some (.mark l) := by
      rw [List.getElem?_eq_getElem hlt, List.getElem_idxOf]
    rw [slotAt_succ hget]
    rfl
  · rw [address, List.idxOf_eq_length h, slotAt_of_length_le (Nat.le_succ _),
      slotAt_of_length_le (Nat.le_refl _)]

/-! ## Linked instructions -/

@[simp] theorem length_linked (cs : Script) : cs.linked.length = cs.slots := by
  simp [linked, slots, List.countP_eq_length_filter]

/-- A command that is no mark is linked into the slot of its place. -/
theorem getElem?_linked (h : cs[i]? = some c) (hc : c.isMark = false) :
    cs.linked[cs.slotAt i]? = some (c.mapTarget cs.target) := by
  have hsplit : cs = cs.take i ++ c :: cs.drop (i + 1) := by
    obtain ⟨hi, rfl⟩ := List.getElem?_eq_some_iff.1 h
    rw [← List.drop_eq_getElem_cons hi, List.take_append_drop]
  have hlen : ((cs.take i).filter fun c => !c.isMark).length = cs.slotAt i := by
    rw [slotAt, slots, List.countP_eq_length_filter]
  have hfilter : cs.filter (fun c => !c.isMark) = (cs.take i).filter (fun c => !c.isMark) ++
      c :: (cs.drop (i + 1)).filter (fun c => !c.isMark) := by
    conv => lhs; rw [hsplit]
    rw [List.filter_append, List.filter_cons_of_pos (by simp [hc])]
  rw [linked, List.getElem?_map, hfilter, ← hlen, List.getElem?_append_right (Nat.le_refl _)]
  simp

theorem marks_eq_nil (h : ∀ c ∈ cs, c.isMark = false) : cs.marks = [] := by
  refine List.filterMap_eq_nil_iff.2 fun c hc => ?_
  have hmark := h c hc
  cases c <;> first | rfl | cases hmark

theorem branchLabels_eq_nil (h : ∀ c ∈ cs, c.target? = none) : cs.branchLabels = [] :=
  List.filterMap_eq_nil_iff.2 h

theorem linked_of_not_mark (h : ∀ c ∈ cs, c.isMark = false) :
    cs.linked = cs.map (Instruction.mapTarget cs.target) := by
  rw [linked, List.filter_eq_self.2]
  intro c hc
  rw [h c hc]
  rfl

theorem mem_branchLabels {kind : Branch} (h : .branch kind l ∈ cs) : l ∈ cs.branchLabels :=
  List.mem_filterMap.2 ⟨.branch kind l, h, rfl⟩

/-- Scripts with marks of their own are linked one by one, and the second one is moved
behind the first one. -/
theorem linked_append (hcs : ∀ l ∈ cs.branchLabels, l ∈ cs.marks)
    (hds : ∀ l ∈ ds.branchLabels, l ∈ ds.marks) (hdisjoint : ∀ l ∈ ds.marks, l ∉ cs.marks) :
    linked (cs ++ ds) =
      cs.linked ++ ds.linked.map (Instruction.mapTarget (Target.relocate (cs.slots + ·))) := by
  rw [linked, linked, linked, List.filter_append, List.map_append, List.map_map]
  congr 1
  · refine List.map_congr_left fun c hc => Instruction.mapTarget_congr ?_
    rintro kind l rfl
    have hl := hcs l (mem_branchLabels (List.mem_of_mem_filter hc))
    rw [target, target, address_append_of_mem hl]
  · refine List.map_congr_left fun c hc => ?_
    rw [Function.comp_apply, Instruction.mapTarget_mapTarget]
    refine Instruction.mapTarget_congr ?_
    rintro kind l rfl
    have hl := hdisjoint l (hds l (mem_branchLabels (List.mem_of_mem_filter hc)))
    rw [target, address_append_of_notMem hl]
    rfl

end Script

end Whitespace

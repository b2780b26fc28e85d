import Whitespace.Proofs.Assembly.Disassembly
import Whitespace.Proofs.Machine.Control

/-!
# Straight-line code

Code without marks, branches, returns and exits is executed from its first instruction
to its last one, so what it does is the composition of what its instructions do
(`Instruction.executeAll`).  A run does the same as long as it is inside of such code
(`Program.HasAt.reaches`), and a source that spells nothing else is assembled
into it as it stands (`Source.SpellsOut.assemble_eq`).
-/

namespace Whitespace

open Source

namespace Instruction

variable {α β : Type}

/-- Whether the next instruction is executed next. -/
def isStraight : Instruction α → Bool
  | push _ => true
  | op o => o != .ret && o != .exit
  | mark _ | branch _ _ => false

theorem plain_of_isStraight {i : Instruction α} (h : i.isStraight = true) :
    i.isMark = false ∧ i.target? = none := by
  cases i with
  | mark _ | branch _ _ => cases h
  | _ => exact ⟨rfl, rfl⟩

/-- Executes instructions one after the other, up to one that does not go on. -/
def executeAll : List (Instruction Target) → State → Step
  | [], s => .next s
  | i :: code, s =>
    match i.execute { s with pc := s.pc + 1 } with
    | .next t => executeAll code t
    | step => step

variable {i : Instruction Target} {code : List (Instruction Target)} {s t u : State}

theorem executeAll_cons_of_next (h : i.execute { s with pc := s.pc + 1 } = .next t)
    (code : List (Instruction Target)) : executeAll (i :: code) s = executeAll code t := by
  rw [executeAll, h]

theorem executeAll_cons_eq_next (h : executeAll (i :: code) s = .next u) :
    ∃ t, i.execute { s with pc := s.pc + 1 } = .next t ∧ executeAll code t = .next u := by
  rw [executeAll] at h
  cases hstep : i.execute { s with pc := s.pc + 1 } with
  | next t => exact ⟨t, rfl, by simpa only [hstep] using h⟩
  | exit t | fault f t =>
    simp only [hstep] at h
    cases h

theorem executeAll_append (h : executeAll code s = .next t) (code' : List (Instruction Target)) :
    executeAll (code ++ code') s = executeAll code' t := by
  induction code generalizing s with
  | nil =>
    cases h
    rfl
  | cons i code ih =>
    obtain ⟨s', hstep, hrest⟩ := executeAll_cons_eq_next h
    rw [List.cons_append, executeAll_cons_of_next hstep, ih hrest]

theorem pc_of_isStraight (hi : i.isStraight = true)
    (h : i.execute { s with pc := s.pc + 1 } = .next t) : t.pc = s.pc + 1 := by
  cases control_of_next h with
  | on hpc _ => exact hpc
  | jump hbranch | call hbranch | ret hbranch =>
    subst hbranch
    cases hi

end Instruction

namespace Program

/-- The code stands in the program from an index on. -/
def HasAt (p : Program) (index : Nat) (code : List (Instruction Target)) : Prop :=
  ∀ k i, code[k]? = some i → p.get? (index + k) = some i

variable {p : Program} {index : Nat} {i : Instruction Target} {code : List (Instruction Target)}
  {s t : State}

namespace HasAt

theorem get? (h : p.HasAt index (i :: code)) : p.get? index = some i := h 0 i rfl

theorem tail (h : p.HasAt index (i :: code)) : p.HasAt (index + 1) code := by
  intro k j hj
  rw [Nat.add_assoc, Nat.add_comm 1]
  exact h (k + 1) j hj

theorem of_toList (h : p.toList = code ∨ p.toList = code ++ [.op .exit]) : p.HasAt 0 code := by
  intro k i hi
  have hk := (List.getElem?_eq_some_iff.1 hi).1
  rw [get?_eq_getElem?, Nat.zero_add]
  rcases h with h | h
  · rw [h, hi]
  · rw [h, List.getElem?_append_left hk, hi]

/-- A run that comes to straight-line code goes through it. -/
theorem reaches (hcode : p.HasAt s.pc code) (hstraight : ∀ i ∈ code, i.isStraight = true)
    (h : Instruction.executeAll code s = .next t) :
    System.Reaches p.move s t ∧ t.pc = s.pc + code.length := by
  induction code generalizing s with
  | nil =>
    cases h
    exact ⟨.refl, rfl⟩
  | cons i code ih =>
    rw [List.forall_mem_cons] at hstraight
    obtain ⟨s', hstep, hrest⟩ := Instruction.executeAll_cons_eq_next h
    have hpc := Instruction.pc_of_isStraight hstraight.1 hstep
    have hmove : p.move s = .next s' := by
      rw [move_of_get? hcode.get?, hstep]
      rfl
    obtain ⟨hreaches, hend⟩ := ih (hpc ▸ hcode.tail) hstraight.2 hrest
    refine ⟨.head hmove hreaches, ?_⟩
    rw [hend, hpc, List.length_cons]
    omega

/-- A run that comes to straight-line code is stopped by its fault. -/
theorem ends {f : Fault} (hcode : p.HasAt s.pc code) (hstraight : ∀ i ∈ code, i.isStraight = true)
    (h : Instruction.executeAll code s = .fault f t) : System.Ends p.move s (.fault f) t := by
  induction code generalizing s with
  | nil => cases h
  | cons i code ih =>
    rw [List.forall_mem_cons] at hstraight
    have hmove := move_of_get? hcode.get?
    cases hstep : i.execute { s with pc := s.pc + 1 } with
    | next s' =>
      rw [Instruction.executeAll_cons_of_next hstep] at h
      rw [hstep] at hmove
      have hpc := Instruction.pc_of_isStraight hstraight.1 hstep
      exact .next hmove (ih (hpc ▸ hcode.tail) hstraight.2 h)
    | exit s' =>
      simp only [Instruction.executeAll, hstep] at h
      cases h
    | fault g s' =>
      simp only [Instruction.executeAll, hstep] at h
      cases h
      rw [hstep] at hmove
      exact .done hmove

end HasAt

/-- **A straight-line program**, with or without an exit at its end, ends where its code
has led to. -/
theorem ends_of_executeAll {console : Console}
    (hp : p.toList = code ∨ p.toList = code ++ [.op .exit])
    (hstraight : ∀ i ∈ code, i.isStraight = true)
    (h : Instruction.executeAll code (State.initial console) = .next t) :
    ∃ e pc, (e = .ranPast ∨ e = .exited) ∧
      System.Ends p.move (State.initial console) e { t with pc } := by
  obtain ⟨hreaches, hpc⟩ := (HasAt.of_toList hp).reaches hstraight h
  rw [State.initial, Nat.zero_add] at hpc
  rcases hp with hp | hp
  · have hnone : p.get? t.pc = none := by
      rw [get?_eq_getElem?, hp, hpc, List.getElem?_length]
    exact ⟨.ranPast, t.pc, .inl rfl, hreaches.ends (.done (move_of_get?_eq_none hnone))⟩
  · have hexit : p.get? t.pc = some (.op .exit) := by
      rw [get?_eq_getElem?, hp, hpc, List.getElem?_concat_length]
    exact ⟨.exited, t.pc + 1, .inr rfl, hreaches.ends (.done (move_of_get? hexit))⟩

end Program

/-- A run of a straight-line program ends well if the last flush does. -/
theorem Machine.exists_run_of_executeAll {p : Program} {code : List (Instruction Target)}
    {console : Console} {t : State} (hp : p.toList = code ∨ p.toList = code ++ [.op .exit])
    (hstraight : ∀ i ∈ code, i.isStraight = true)
    (h : Instruction.executeAll code (State.initial console) = .next t) (m : Machine) (log : Log) :
    ∃ fuel r, m.run p fuel console log = some r ∧
      (t.output.canFlush = true → r.result = .ok ()) ∧
      ∃ pc, r.state = { t with pc, output := t.output.flush.2 } := by
  obtain ⟨e, pc, he, hends⟩ := Program.ends_of_executeAll hp hstraight h
  obtain ⟨fuel, r, hr, hout⟩ := exists_run_of_ends hends m log
  refine ⟨fuel, r, hr, fun hflush => ?_, pc, Report.state_of_outcome hout⟩
  have hresult : r.result = _ := (congrArg Outcome.result hout).trans (Ending.result_close he)
  rw [hresult, if_pos hflush]

/-! ## Sources -/

/-- A source that spells these commands and nothing else but perhaps an exit at the end. -/
def Source.SpellsOut (source : List UInt8) (cs : Script) : Prop :=
  ∃ sp, Spells source sp ∧
    (Script.ofSpellings sp = cs ∨ Script.ofSpellings sp = cs ++ [.op .exit])

namespace Source.SpellsOut

variable {a : List UInt8} {cs : Script}

theorem assemble_eq (h : SpellsOut a cs) (hcs : ∀ c ∈ cs, c.isStraight = true)
    (f : Label → Target) :
    ∃ p, assemble a = .ok p ∧
      (p.toList = cs.map (Instruction.mapTarget f) ∨
        p.toList = cs.map (Instruction.mapTarget f) ++ [.op .exit]) := by
  obtain ⟨sp, hsp, hend⟩ := h
  have hplain : ∀ c ∈ cs ++ [.op .exit], c.isMark = false ∧ c.target? = none := by
    intro c hc
    rcases List.mem_append.1 hc with hc | hc
    · exact Instruction.plain_of_isStraight (hcs c hc)
    · rw [List.mem_singleton.1 hc]
      exact ⟨rfl, rfl⟩
  rcases hend with hend | hend
  · refine ⟨_, hsp.assemble_of_plain hend ?_ f, .inl rfl⟩
    intro c hc
    exact hplain c (List.mem_append_left _ hc)
  · refine ⟨_, hsp.assemble_of_plain hend hplain f, .inr ?_⟩
    rw [Program.toList_ofList, List.map_append]
    rfl

end Source.SpellsOut

theorem exists_spellsOut {cs : Script} (hcs : ∀ c ∈ cs, c.isStraight = true) :
    ∃ a, SpellsOut a cs := by
  have hcommands : Script.ofSpellings (cs.map Instruction.spelling) = cs := by
    rw [Script.ofSpellings, List.map_map]
    refine (List.map_congr_left fun c hc => ?_).trans (List.map_id cs)
    obtain ⟨hmark, hbranch⟩ := Instruction.plain_of_isStraight (hcs c hc)
    refine Instruction.command_spelling ?_ ?_
    · intro l hl
      rw [Instruction.marked?_eq_some_iff.1 hl] at hmark
      cases hmark
    · intro l hl
      rw [hbranch] at hl
      cases hl
  refine ⟨ofSymbols ((cs.map Instruction.spelling).flatMap Spelling.symbols),
    cs.map Instruction.spelling, ⟨?_, .inl ⟨?_, symbols_ofSymbols _⟩⟩, .inl hcommands⟩
  · rw [hcommands, Script.marks_eq_nil fun c hc => (Instruction.plain_of_isStraight (hcs c hc)).1]
    exact List.nodup_nil
  · intro hexit
    obtain ⟨c, hc, hspelling⟩ := List.mem_map.1 hexit
    have hstraight := hcs c hc
    rw [Instruction.spelling_eq_exit_iff.1 hspelling] at hstraight
    cases hstraight

end Whitespace

import Whitespace.Proofs.Assembly.Grammar
import Whitespace.Proofs.Machine.Control

/-!
# Running a script

A script can be run as it is: the program counter is a place in the script, a
mark does nothing, and a branch goes on behind the mark of its label
(`Script.move`).  The linked program does the same in fewer turns.  It leaves the
marks out, and its state is the script's state with every place renumbered to
its slot (`Script.move_linked`).  So assembling a source keeps the meaning of its
commands (`assembled_run_agrees`).
-/

namespace Whitespace

namespace Script

/-- The place behind the mark of a label. -/
def landing (cs : Script) (l : Label) : Nat := cs.idxOf (.mark l) + 1

/-- Executes a command.  The program counter is already past it. -/
def execute (cs : Script) (s : State) : Command → Step
  | .push n => .next (s.push n)
  | .mark _ => .next s
  | .branch kind l => kind.execute s (cs.landing l)
  | .op o => o.execute s

/-- One turn of a script: executes the command at the program counter, if there
is one. -/
def move (cs : Script) : System := fun s =>
  match cs[s.pc]? with
  | none => .done .ranPast s
  | some c => (cs.execute { s with pc := s.pc + 1 } c).move

/-- Runs a script on a fresh machine. -/
def run (cs : Script) (fuel : Nat) (console : Console) : Option Outcome :=
  (System.run cs.move fuel (State.initial console)).map fun r => r.1.close r.2

/-- A linked command does at the slots what the command does at the places. -/
theorem execute_linked (cs : Script) (s : State) (c : Command) :
    (c.mapTarget cs.target).execute (s.relocate cs.slotAt) =
      (cs.execute s c).map (State.relocate cs.slotAt) := by
  cases c with
  | push n => rfl
  | mark l => rfl
  | branch kind l =>
    have hindex : (cs.target l).index = cs.slotAt (cs.landing l) := (cs.slotAt_idxOf_succ l).symm
    simp only [Instruction.mapTarget, Instruction.execute, execute, hindex]
    exact kind.execute_relocate cs.slotAt s (cs.landing l)
  | op o => exact o.execute_relocate cs.slotAt s

/-- **A turn of a script is a turn of the linked program**, or it passes a mark
and changes nothing but the place. -/
theorem move_linked (cs : Script) (s : State) :
    (Program.ofList cs.linked).move (s.relocate cs.slotAt) =
        (cs.move s).map (State.relocate cs.slotAt) ∨
      ∃ t, cs.move s = .next t ∧ t.relocate cs.slotAt = s.relocate cs.slotAt ∧
        cs.length - t.pc < cs.length - s.pc := by
  have hfetch : (Program.ofList cs.linked).get? (s.relocate cs.slotAt).pc =
      cs.linked[cs.slotAt s.pc]? := by
    rw [Program.get?_eq_getElem?, Program.toList_ofList]
    rfl
  cases hc : cs[s.pc]? with
  | none =>
    -- the place behind a script has the slot behind its instructions
    left
    have hslot : cs.slotAt s.pc = cs.linked.length := by
      rw [slotAt_of_length_le (List.getElem?_eq_none_iff.1 hc), length_linked]
    simp only [Program.move, hfetch, hslot, List.getElem?_length, move, hc]
    rfl
  | some c =>
    have hnext := slotAt_succ hc
    cases hm : c.isMark with
    | false =>
      left
      have hpc : { s.relocate cs.slotAt with pc := (s.relocate cs.slotAt).pc + 1 } =
          State.relocate cs.slotAt { s with pc := s.pc + 1 } := by
        simp only [hm, Bool.false_eq_true, ↓reduceIte] at hnext
        simp only [State.relocate, State.mapControl, hnext]
      simp only [Program.move, hfetch, getElem?_linked hc hm, hpc, execute_linked, Step.move_map,
        move, hc]
    | true =>
      -- a mark and the place behind it share a slot, so this turn is left out
      right
      obtain ⟨l, rfl⟩ := Instruction.isMark_iff.1 hm
      refine ⟨{ s with pc := s.pc + 1 }, by simp only [move, hc]; rfl, ?_, ?_⟩
      · simp only [hm, ↓reduceIte, Nat.add_zero] at hnext
        simp only [State.relocate, State.mapControl, hnext]
      · have hlt := (List.getElem?_eq_some_iff.1 hc).1
        dsimp only
        omega

/-- The linked program ends where the script ends, and nowhere else. -/
theorem ends_linked_iff (cs : Script) (console : Console) {e : Ending} {t : State} :
    System.Ends (Program.ofList cs.linked).move (State.initial console) e t ↔
      ∃ u, t = u.relocate cs.slotAt ∧ System.Ends cs.move (State.initial console) e u := by
  constructor
  · intro h
    exact h.exists_of_stutter cs.move_linked rfl
  · rintro ⟨u, rfl, h⟩
    exact h.of_stutter cs.move_linked

end Script

/-- Two runs that agree on all that can be seen but the places in their code. -/
structure Outcome.Agrees (a b : Outcome) : Prop where
  result : a.result = b.result
  written : a.state.output.written = b.state.output.written
  flushes : a.state.output.flushes = b.state.output.flushes
  consumed : a.state.input.consumed = b.state.input.consumed
  stack : a.state.stack = b.state.stack
  heap : a.state.heap = b.state.heap
  callDepth : a.state.calls.length = b.state.calls.length

theorem Ending.agrees_close_relocate (ρ : Nat → Nat) (e : Ending) (s : State) :
    (e.close (s.relocate ρ)).Agrees (e.close s) := by
  cases e <;> exact ⟨rfl, rfl, rfl, rfl, rfl, rfl, List.length_map _⟩

/-- **Assembling preserves meaning.**  The program of a source and the commands
that are decoded of it either both run on without end, or both come to an end
and agree. -/
theorem assembled_run_agrees {source : List UInt8} {p : Program}
    (h : assemble source = .ok p) (m : Machine) (console : Console) (log : Log) :
    ((∃ fuel r, m.run p fuel console log = some r) ↔
      ∃ fuel o, Script.run (Decoding.ofSource source).commands fuel console = some o) ∧
    ∀ n r k o, m.run p n console log = some r →
      Script.run (Decoding.ofSource source).commands k console = some o → r.outcome.Agrees o := by
  obtain ⟨sp, hsp, -, rfl⟩ := assemble_eq_ok_iff.1 h
  rw [hsp.reflects.commands]
  generalize Script.ofSpellings sp = cs
  have hrun : ∀ k o, cs.run k console = some o →
      ∃ e u, System.Ends cs.move (State.initial console) e u ∧ o = e.close u := by
    intro k o ho
    obtain ⟨⟨e, u⟩, heu, ho⟩ := Option.map_eq_some_iff.1 ho
    exact ⟨e, u, .of_run heu, ho.symm⟩
  refine ⟨?_, ?_⟩
  · rw [Machine.exists_run_iff]
    constructor
    · rintro ⟨e, t, ht⟩
      obtain ⟨u, -, hu⟩ := (cs.ends_linked_iff console).1 ht
      obtain ⟨k, hk⟩ := hu.exists_run
      exact ⟨k, e.close u, by rw [Script.run, hk]; rfl⟩
    · rintro ⟨k, o, ho⟩
      obtain ⟨e, u, hu, -⟩ := hrun k o ho
      exact ⟨e, u.relocate cs.slotAt, (cs.ends_linked_iff console).2 ⟨u, rfl, hu⟩⟩
  · intro n r k o hr ho
    obtain ⟨e, t, ht, hout⟩ := Machine.ends_of_run hr
    obtain ⟨u, rfl, hu⟩ := (cs.ends_linked_iff console).1 ht
    obtain ⟨e', u', hu', rfl⟩ := hrun k o ho
    obtain ⟨rfl, rfl⟩ := hu.unique hu'
    rw [hout]
    exact e.agrees_close_relocate cs.slotAt u

/-- The countdown comes to an end, linked or not. -/
theorem Countdown.run_agrees : assemble source = .ok program ∧
    ∃ n r k o, Machine.run {} program n {} ⟨.warn, #[]⟩ = some r ∧
      Script.run (Decoding.ofSource source).commands k {} = some o ∧ r.outcome.Agrees o := by
  have h := assembled_run_agrees assemble_source {} {} ⟨.warn, #[]⟩
  obtain ⟨r, hr⟩ : ∃ r, Machine.run {} program 16 {} ⟨.warn, #[]⟩ = some r := ⟨_, rfl⟩
  obtain ⟨k, o, ho⟩ := h.1.1 ⟨16, r, hr⟩
  exact ⟨assemble_source, 16, r, k, o, hr, ho, h.2 16 r k o hr ho⟩

end Whitespace

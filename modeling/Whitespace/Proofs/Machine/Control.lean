import Whitespace.Proofs.Machine.Frame

/-!
# Control

The program counter and the saved return addresses are the control of a machine.
Only returns and branches look at it: any other operation does the same whatever
control it is given (`Operation.execute_mapControl`), and so leaves it alone.
From this comes what an instruction can do to the control when the run goes on
(`Instruction.control_of_next`), when it has come to its exit
(`Instruction.eq_exit_of_exit`) and when it is stopped by a fault
(`Instruction.control_of_fault`).

The machine uses the numbers of instructions only to go there and to come back.  So
renumbering them in the program counter, in the saved return addresses and in the
target of an instruction changes nothing else (`Instruction.execute_relocate`).
-/

namespace Whitespace

def Step.isExit : Step → Bool
  | exit _ => true
  | _ => false

namespace State

/-- Changes the program counter and the saved return addresses. -/
def mapControl (π : Nat → Nat) (κ : List Nat → List Nat) (s : State) : State :=
  { s with pc := π s.pc, calls := κ s.calls }

theorem frame_mapControl (π : Nat → Nat) (κ : List Nat → List Nat) :
    Frame (mapControl π κ) id where
  stack _ := rfl
  heap _ := rfl
  output _ := rfl
  input _ := rfl
  setStack _ _ := rfl
  setHeap _ _ := rfl
  setOutput _ _ := rfl
  setInput _ _ := rfl

/-! ## Steps that are no exits -/

theorem isExit_pop (s : State) {k : Int64 → State → Step} (h : ∀ a t, (k a t).isExit = false) :
    (s.pop k).isExit = false := by
  unfold pop
  split
  · rfl
  · exact h _ _

theorem isExit_ret (s : State) : s.ret.isExit = false := by
  unfold ret
  split <;> rfl

theorem isExit_write (s : State) (bytes : List UInt8) : (s.write bytes).isExit = false := by
  obtain ⟨machine, ⟨input, output⟩⟩ := s
  simp only [write]
  rcases output.write bytes with ⟨_ | _, output'⟩ <;> rfl

theorem isExit_flush (s : State) {k : State → Step} (h : ∀ t, (k t).isExit = false) :
    (s.flush k).isExit = false := by
  obtain ⟨machine, ⟨input, output⟩⟩ := s
  simp only [flush]
  rcases output.flush with ⟨_ | _, output'⟩
  · rfl
  · exact h ⟨machine, ⟨input, output'⟩⟩

theorem isExit_read {α : Type} (s : State) (source : Input → Except Fault α × Input)
    (number : α → Int64) : (s.read source number).isExit = false := by
  unfold read
  split <;> rfl

end State

/-! ## Operations -/

namespace Operation

variable {o : Operation} {s t : State} {f : Fault}

/-- **Operations work under any control**, a return apart. -/
theorem execute_mapControl (ho : o ≠ .ret) (π : Nat → Nat) (κ : List Nat → List Nat)
    (s : State) : o.execute (s.mapControl π κ) = (o.execute s).map (State.mapControl π κ) :=
  execute_frame (State.frame_mapControl π κ) ho fun _ _ _ => by rw [Prod.map_id]; rfl

/-- What an operation comes to has the control that it was given. -/
theorem execute_eq_map (ho : o ≠ .ret) (s : State) :
    o.execute s = (o.execute s).map (State.mapControl (fun _ => s.pc) fun _ => s.calls) :=
  execute_mapControl ho (fun _ => s.pc) (fun _ => s.calls) s

theorem isExit_execute (ho : o ≠ .exit) (s : State) : (o.execute s).isExit = false := by
  cases o <;> simp only [execute]
  case dup | discard | retrieve => exact s.isExit_pop fun _ _ => rfl
  case swap | store => exact s.isExit_pop fun _ t => t.isExit_pop fun _ _ => rfl
  case arith op =>
    refine s.isExit_pop fun r t => t.isExit_pop fun l u => ?_
    cases op.eval? l r <;> rfl
  case ret => exact s.isExit_ret
  case exit => exact absurd rfl ho
  case outChar | outNum => exact s.isExit_pop fun _ t => t.isExit_write _
  case readChar | readNum => exact s.isExit_flush fun t => t.isExit_read _ _

theorem control_of_next (ho : o ≠ .ret) (h : o.execute s = .next t) :
    t.pc = s.pc ∧ t.calls = s.calls := by
  have hframe := execute_eq_map ho s
  rw [h] at hframe
  rw [Step.next.inj hframe]
  exact ⟨rfl, rfl⟩

theorem control_of_fault (h : o.execute s = .fault f t) : t.pc = s.pc ∧ t.calls = s.calls := by
  by_cases ho : o = .ret
  · subst ho
    simp only [execute, State.ret] at h
    split at h
    · cases h
      exact ⟨rfl, rfl⟩
    · cases h
  · have hframe := execute_eq_map ho s
    rw [h] at hframe
    rw [(Step.fault.inj hframe).2]
    exact ⟨rfl, rfl⟩

end Operation

/-! ## Instructions -/

/-- What an instruction does to the control.  The program counter of the first
state is already past it. -/
inductive Control (i : Instruction Target) (s t : State) : Prop
  /-- The run goes on behind the instruction. -/
  | on (hpc : t.pc = s.pc) (hcalls : t.calls = s.calls)
  /-- The run goes on at a target. -/
  | jump {kind : Branch} {target : Target} (hi : i = .branch kind target)
      (hpc : t.pc = target.index) (hcalls : t.calls = s.calls)
  /-- The run goes on at a target, and its way back is saved. -/
  | call {target : Target} (hi : i = .branch .call target) (hpc : t.pc = target.index)
      (hcalls : t.calls = s.pc :: s.calls)
  /-- The run goes back to where it was called from last. -/
  | ret (hi : i = .op .ret) (hcalls : s.calls = t.pc :: t.calls)

namespace Instruction

variable {i : Instruction Target} {s t : State} {f : Fault}

/-- A branch that looks at the topmost value either goes to its target or does
not. -/
theorem control_of_pop {kind : Branch} {target : Target} {c : Int64 → Prop} [DecidablePred c]
    (h : (s.pop fun a s => .next (if c a then { s with pc := target.index } else s)) = .next t) :
    Control (.branch kind target) s t := by
  unfold State.pop at h
  split at h
  · cases h
  · next a stack _ =>
    by_cases ha : c a
    · simp only [if_pos ha] at h
      cases h
      exact .jump rfl rfl rfl
    · simp only [if_neg ha] at h
      cases h
      exact .on rfl rfl

/-- **What an instruction can do to the control** if the run goes on. -/
theorem control_of_next (h : i.execute s = .next t) : Control i s t := by
  cases i with
  | push n | mark l =>
    cases h
    exact .on rfl rfl
  | branch kind target =>
    cases kind with
    | call =>
      cases h
      exact .call rfl rfl rfl
    | jump =>
      cases h
      exact .jump rfl rfl rfl
    | jumpIfZero | jumpIfNegative => exact control_of_pop h
  | op o =>
    by_cases ho : o = .ret
    · subst ho
      simp only [execute, Operation.execute, State.ret] at h
      split at h
      · cases h
      · next hcalls =>
        cases h
        exact .ret rfl hcalls
    · obtain ⟨hpc, hcalls⟩ := Operation.control_of_next ho h
      exact .on hpc hcalls

theorem isExit_execute (hi : i ≠ .op .exit) (s : State) : (i.execute s).isExit = false := by
  cases i with
  | push n | mark l => rfl
  | branch kind target =>
    cases kind <;> simp only [execute, Branch.execute]
    case call | jump => rfl
    case jumpIfZero | jumpIfNegative => exact s.isExit_pop fun _ _ => rfl
  | op o => exact Operation.isExit_execute (fun h => hi (h ▸ rfl)) s

/-- A run comes to its exit by an exit only. -/
theorem eq_exit_of_exit (h : i.execute s = .exit t) : i = .op .exit ∧ t = s := by
  by_cases hi : i = .op .exit
  · subst hi
    cases h
    exact ⟨rfl, rfl⟩
  · have hexit := isExit_execute hi s
    rw [h] at hexit
    cases hexit

theorem ne_exit_of_next (h : i.execute s = .next t) : i ≠ .op .exit := by
  rintro rfl
  cases h

/-- An instruction that fails does so where it stands. -/
theorem control_of_fault (h : i.execute s = .fault f t) : t.pc = s.pc ∧ t.calls = s.calls := by
  cases i with
  | push n | mark l => cases h
  | branch kind target =>
    cases kind with
    | call | jump => cases h
    | jumpIfZero | jumpIfNegative =>
      simp only [execute, Branch.execute, State.pop] at h
      split at h
      · cases h
        exact ⟨rfl, rfl⟩
      · cases h
  | op o => exact Operation.control_of_fault h

end Instruction

/-! ## Relocation -/

/-- Renumbers the places that a state knows of. -/
def State.relocate (ρ : Nat → Nat) : State → State := mapControl ρ (List.map ρ)

variable (ρ : Nat → Nat)

theorem State.renumbers_relocate : Renumbers (relocate ρ) ρ where
  pc _ := rfl
  calls _ := rfl
  setControl _ _ _ := rfl

/-- **Relocated code does the same** at relocated places. -/
theorem Instruction.execute_relocate (s : State) (i : Instruction Target) :
    (i.mapTarget (Target.relocate ρ)).execute (s.relocate ρ) =
      (i.execute s).map (State.relocate ρ) := by
  exact execute_of_change (State.frame_mapControl ρ (List.map ρ)).change
    (State.renumbers_relocate ρ) (.inl rfl)

theorem Operation.execute_relocate (s : State) (o : Operation) :
    o.execute (s.relocate ρ) = (o.execute s).map (State.relocate ρ) :=
  Instruction.execute_relocate ρ s (.op o)

theorem Branch.execute_relocate (s : State) (index : Nat) (kind : Branch) :
    kind.execute (s.relocate ρ) (ρ index) = (kind.execute s index).map (State.relocate ρ) :=
  execute_change (State.frame_mapControl ρ (List.map ρ)).change (State.renumbers_relocate ρ)
    (.inl rfl)

end Whitespace

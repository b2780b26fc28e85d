import Whitespace.Proofs.Machine.ControlFlow

/-!
# Targets outside of the program

A program that was not assembled may have any targets, and marks among its code.  A
branch that leads past the end of the program is followed, but no instruction is
fetched there, so the program counter goes no further; and a call saves the place
behind itself, wherever it leads.  So the counter only goes up inside of the
program, and every return leads back there (`Program.Sound`).  A run cannot tell a
target that is too large from the end of the program (`Program.move_clamp`).
-/

namespace Whitespace

namespace Program

/-- The program with the targets that are behind its end moved to its end. -/
def clamp (p : Program) : Program :=
  ofList (p.toList.map (Instruction.mapTarget (Target.relocate (min p.size))))

/-- What holds in a run whatever the targets of its program are. -/
structure Sound (p : Program) (s : State) : Prop where
  /-- The program counter goes up inside of the program only. -/
  fetch : ∀ i, p.get? s.pc = some i → s.pc + 1 ≤ p.size
  /-- It stays within every bound that the program and its targets stay within, such
  as the largest number that it can hold. -/
  pc : ∀ bound, p.size ≤ bound → (∀ target ∈ p.targets, target.index ≤ bound) → s.pc ≤ bound
  /-- Every return leads behind a call. -/
  calls : ∀ n ∈ s.calls, p.ReturnAddress n

variable {p : Program} {s t : State} {e : Ending}

/-! ## The counter and the ways back -/

theorem sound_initial (p : Program) (console : Console) : p.Sound (State.initial console) where
  fetch _ := lt_size_of_get?
  pc _ _ _ := Nat.zero_le _
  calls _ hn := absurd hn List.not_mem_nil

namespace Sound

theorem next (hs : p.Sound s) (h : p.move s = .next t) : p.Sound t where
  fetch _ := lt_size_of_get?
  calls := returnAddress_next hs.calls h
  pc bound hsize htargets := by
    obtain ⟨i, hi, hstep⟩ := move_eq_next h
    cases Instruction.control_of_next hstep with
    | on hpc _ =>
      rw [hpc]
      exact Nat.le_trans (hs.fetch i hi) hsize
    | jump hbranch hpc _ | call hbranch hpc _ =>
      subst hbranch
      rw [hpc]
      exact htargets _ (mem_targets_of_get? hi)
    | ret _ hcalls =>
      have hret := hs.calls t.pc (hcalls ▸ List.mem_cons_self)
      exact Nat.le_trans hret.le hsize

/-- The last move leads to the place behind its instruction, if there is one. -/
theorem done (hs : p.Sound s) (h : p.move s = .done e t) : p.Sound t := by
  have hbehind : ∀ i, p.get? s.pc = some i → t.pc = s.pc + 1 → t.calls = s.calls → p.Sound t := by
    intro i hi hpc hcalls
    exact {
      fetch := fun _ => lt_size_of_get?
      pc := fun bound hsize _ => hpc ▸ Nat.le_trans (hs.fetch i hi) hsize
      calls := hcalls ▸ hs.calls }
  rcases move_eq_done h with ⟨-, -, rfl⟩ | ⟨i, hi, ⟨-, hstep⟩ | ⟨f, -, hstep⟩⟩
  · exact hs
  · obtain ⟨-, rfl⟩ := Instruction.eq_exit_of_exit hstep
    exact hbehind i hi rfl rfl
  · obtain ⟨hpc, hcalls⟩ := Instruction.control_of_fault hstep
    exact hbehind i hi hpc hcalls

theorem of_reaches {console : Console} (h : System.Reaches p.move (State.initial console) s) :
    p.Sound s :=
  h.invariant (p.sound_initial console) fun _ _ => next

theorem of_ends {console : Console} (h : System.Ends p.move (State.initial console) e t) :
    p.Sound t := by
  obtain ⟨s, hs, hlast⟩ := h.exists_last
  exact (of_reaches hs).done hlast

end Sound

/-! ## Clamped targets -/

theorem get?_clamp (p : Program) (n : Nat) :
    p.clamp.get? (min p.size n) =
      (p.get? n).map (Instruction.mapTarget (Target.relocate (min p.size))) := by
  have hmin : p.get? (min p.size n) = p.get? n := by
    rcases Nat.le_total p.size n with h | h
    · rw [Nat.min_eq_left h, get?_eq_none_iff.2 h, get?_eq_none_iff.2 (Nat.le_refl _)]
    · rw [Nat.min_eq_right h]
  rw [← hmin, get?_eq_getElem?, get?_eq_getElem?, clamp, toList_ofList, List.getElem?_map]

/-- **The clamped program moves alike**, with the counter held at the end. -/
theorem move_clamp (p : Program) (s : State) :
    p.clamp.move (s.relocate (min p.size)) = (p.move s).map (State.relocate (min p.size)) := by
  refine move_map (p.get?_clamp s.pc) ?_
  intro i hi
  have hlt : s.pc < p.size := lt_size_of_get? hi
  have hpc : min p.size s.pc + 1 = min p.size (s.pc + 1) := by omega
  rw [← Instruction.execute_relocate]
  congr 1
  simp only [State.relocate, State.mapControl, hpc]

/-- Clamping changes no way back. -/
theorem Sound.relocate_eq (hs : p.Sound s) :
    s.relocate (min p.size) = { s with pc := min p.size s.pc } := by
  have hcalls : s.calls.map (min p.size) = s.calls := by
    conv => rhs; rw [← List.map_id s.calls]
    refine List.map_congr_left ?_
    intro n hn
    exact Nat.min_eq_right (hs.calls n hn).le
  rw [State.relocate, State.mapControl, hcalls]

end Program

/-- The same outcome, with the program counter held at the end of a program. -/
def Outcome.clamp (size : Nat) (o : Outcome) : Outcome :=
  { o with state := { o.state with pc := min size o.state.pc } }

theorem Ending.close_clamp (size : Nat) (e : Ending) (s : State) :
    e.close { s with pc := min size s.pc } = (e.close s).clamp size := by
  cases e <;> rfl

/-- **Targets outside of a program do no harm.**  The counter never goes up outside of
the program and no return leads there; and if the targets that are too large led to the
end of the program, every run would come to the same, but for where its counter stops. -/
theorem targets_harmless (p : Program) (console : Console) :
    (∀ s, System.Reaches p.move (State.initial console) s → p.Sound s) ∧
    ∀ (m : Machine) (fuel : Nat) (log : Log),
      (∀ r, m.run p fuel console log = some r → p.Sound r.state) ∧
      (m.run p.clamp fuel console log).map Report.outcome =
        (m.run p fuel console log).map fun r => r.outcome.clamp p.size := by
  refine ⟨fun s => Program.Sound.of_reaches, fun m fuel log => ⟨?_, ?_⟩⟩
  · intro r hr
    obtain ⟨e, t, hends, hout⟩ := Machine.ends_of_run hr
    have ht := Program.Sound.of_ends hends
    rw [Report.state_of_outcome hout]
    exact ⟨ht.fetch, ht.pc, ht.calls⟩
  · have hinitial : State.initial console = (State.initial console).relocate (min p.size) := by
      rw [(p.sound_initial console).relocate_eq]
      exact congrArg (fun pc => { State.initial console with pc }) (Nat.min_zero _).symm
    have houtcome : (fun r : Report => r.outcome.clamp p.size) =
        Outcome.clamp p.size ∘ Report.outcome := rfl
    rw [houtcome, ← Option.map_map, Machine.outcome_run, Machine.outcome_run, hinitial,
      System.run_map fun u _ => p.move_clamp u, ← hinitial, Option.map_map, Option.map_map]
    refine Option.map_congr ?_
    rintro ⟨e, t⟩ hrun
    have ht : t.relocate (min p.size) = { t with pc := min p.size t.pc } :=
      (Program.Sound.of_ends (.of_run hrun)).relocate_eq
    change e.close (t.relocate (min p.size)) = (e.close t).clamp p.size
    rw [ht, Ending.close_clamp]

/-- A branch can lead as far as the counter can count, and the run ends there. -/
example : (Machine.run {} (.ofList [.branch .jump ⟨⟨"T"⟩, 2 ^ 64 - 1⟩]) 2 {} ⟨.warn, #[]⟩).map
    (fun r => r.state.pc) = some (2 ^ 64 - 1) := rfl

end Whitespace

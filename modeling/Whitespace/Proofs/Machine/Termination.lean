import Mathlib.Algebra.Ring.Nat
import Whitespace.Proofs.Machine.Control
import Whitespace.Proofs.Machine.Trace

/-!
# Forward programs terminate

In a forward program every branch goes to a later instruction.  A return may still go
back, so the program counter alone measures nothing, and code that is called from several
places is executed again and again.  But a call is paid for in advance: whatever can be
executed from an index on and from the next index on, put together, is less than what can
be executed from the index before (`Program.weight_eq`).  So the weights of the program
counter and of all saved return addresses have a sum that falls with every instruction
(`Program.Forward.weightOf_lt`), and a run is over within `2 ^ p.size` turns
(`forward_terminates`).
-/

namespace Whitespace

/-- A system with a measure that falls as it moves comes to an end. -/
theorem System.exists_run_of_measure {f : System} {μ : State → Nat}
    (hμ : ∀ s t, f s = .next t → μ t < μ s) {fuel : Nat} {s : State} (h : μ s < fuel) :
    ∃ r, run f fuel s = some r := by
  induction fuel generalizing s with
  | zero => exact absurd h (Nat.not_lt_zero _)
  | succ fuel ih =>
    rw [run]
    cases hs : f s with
    | next t => exact ih (Nat.lt_of_lt_of_le (hμ s t hs) (Nat.le_of_lt_succ h))
    | done e t => exact ⟨_, rfl⟩

namespace Program

variable {p : Program} {s t : State} {fuel : Nat}

/-- The number of instructions that are executed, and entered in the log, in `fuel` turns
at most. -/
def executed (p : Program) (fuel : Nat) (s : State) : Nat :=
  ((System.visited p.move fuel s).filterMap p.executing?).length

theorem executed_of_next (h : p.move s = .next t) :
    p.executed (fuel + 1) s = p.executed fuel t + 1 := by
  obtain ⟨i, hi, -⟩ := move_eq_next h
  have hevent : p.executing? s = some (.executing s.pc i s.stack.length) := by
    rw [executing?, hi, Option.map_some]
  rw [executed, System.visited, h, List.filterMap_cons_some hevent]
  rfl

theorem executed_of_done {e : Ending} (h : p.move s = .done e t) :
    p.executed (fuel + 1) s = (p.executing? s).toList.length := by
  rw [executed, System.visited, h]
  cases hevent : p.executing? s with
  | none => rw [List.filterMap_cons_none hevent]; rfl
  | some event => rw [List.filterMap_cons_some hevent]; rfl

/-- Every branch of the program goes to a later index. -/
def Forward (p : Program) : Prop :=
  ∀ i kind target, p.get? i = some (.branch kind target) → i < target.index

/-! ## Weights -/

/-- The most that a forward program can execute from an index on. -/
def weight (p : Program) (index : Nat) : Nat := 2 ^ (p.size - index) - 1

/-- The weights of the program counter and of all saved return addresses together. -/
def weightOf (p : Program) (s : State) : Nat := p.weight s.pc + (s.calls.map p.weight).sum

/-- One instruction, and twice what lies behind it. -/
theorem weight_eq {index : Nat} (h : index < p.size) :
    p.weight index = 2 * p.weight (index + 1) + 1 := by
  have hpow : 2 ^ (p.size - index) = 2 * 2 ^ (p.size - (index + 1)) := by
    rw [← Nat.pow_succ']
    congr 1
    omega
  have hpos : 0 < 2 ^ (p.size - (index + 1)) := Nat.two_pow_pos _
  rw [weight, weight, hpow]
  omega

theorem weight_anti {i j : Nat} (h : i ≤ j) : p.weight j ≤ p.weight i := by
  have hpow : 2 ^ (p.size - j) ≤ 2 ^ (p.size - i) := by
    refine Nat.pow_le_pow_right (by decide) ?_
    omega
  exact Nat.sub_le_sub_right hpow 1

theorem weightOf_pos (h : s.pc < p.size) : 0 < p.weightOf s := by
  rw [weightOf, weight_eq h]
  omega

theorem weightOf_initial (console : Console) :
    p.weightOf (State.initial console) = 2 ^ p.size - 1 := rfl

namespace Forward

/-- **The weight falls with every instruction**, one case for each way to go on. -/
theorem weightOf_lt (hp : p.Forward) (h : p.move s = .next t) : p.weightOf t < p.weightOf s := by
  obtain ⟨i, hi, hexec⟩ := move_eq_next h
  have hweight := weight_eq (lt_size_of_get? hi)
  simp only [weightOf]
  cases Instruction.control_of_next hexec with
  | on hpc hcalls =>
    dsimp only at hpc hcalls
    rw [hpc, hcalls]
    omega
  | @jump kind target hbranch hpc hcalls =>
    have hlater : p.weight target.index ≤ p.weight (s.pc + 1) :=
      weight_anti (hp _ kind target (hbranch ▸ hi))
    dsimp only at hcalls
    rw [hpc, hcalls]
    omega
  | @call target hbranch hpc hcalls =>
    have hlater : p.weight target.index ≤ p.weight (s.pc + 1) :=
      weight_anti (hp _ .call target (hbranch ▸ hi))
    dsimp only at hcalls
    rw [hpc, hcalls, List.map_cons, List.sum_cons]
    omega
  | ret _ hcalls =>
    -- the address that is returned to has been weighed among the saved ones
    dsimp only at hcalls
    rw [hcalls, List.map_cons, List.sum_cons]
    omega

theorem executed_le (hp : p.Forward) (fuel : Nat) (s : State) :
    p.executed fuel s ≤ p.weightOf s := by
  induction fuel generalizing s with
  | zero => exact Nat.zero_le _
  | succ fuel ih =>
    cases hs : p.move s with
    | next t =>
      rw [executed_of_next hs]
      exact Nat.lt_of_le_of_lt (ih t) (hp.weightOf_lt hs)
    | done e t =>
      rw [executed_of_done hs, executing?]
      cases hi : p.get? s.pc with
      | none => exact Nat.zero_le _
      | some i => exact weightOf_pos (lt_size_of_get? hi)

end Forward

end Program

/-- **A forward program terminates**, on every input and every output, and executes no more
than `2 ^ p.size - 1` instructions. -/
theorem forward_terminates {p : Program} (hp : p.Forward) (m : Machine) (console : Console)
    (log : Log) :
    (∃ r, m.run p (2 ^ p.size) console log = some r) ∧
      ∀ fuel, p.executed fuel (State.initial console) ≤ 2 ^ p.size - 1 := by
  constructor
  · have hweight : p.weightOf (State.initial console) < 2 ^ p.size := by
      rw [Program.weightOf_initial]
      exact Nat.sub_lt (Nat.two_pow_pos _) Nat.one_pos
    obtain ⟨⟨e, t⟩, hrun⟩ := System.exists_run_of_measure (fun _ _ => hp.weightOf_lt) hweight
    obtain ⟨r, hr, -⟩ := Machine.exists_run_of_system_run hrun m log
    exact ⟨r, hr⟩
  · intro fuel
    rw [← p.weightOf_initial console]
    exact hp.executed_le fuel _

namespace Tower

/-- Every instruction but the last one calls the next one, which is executed twice as often
for it. -/
def program : Program :=
  .ofList [.branch .call ⟨⟨"S"⟩, 1⟩, .branch .call ⟨⟨"T"⟩, 2⟩, .op .ret]

theorem forward : program.Forward := by
  intro i kind target h
  rw [Program.get?_eq_getElem?] at h
  match i with
  | 0 => cases h; decide
  | 1 => cases h; decide
  | 2 => cases h
  | i + 3 => cases h

/-- The bound is reached. -/
theorem terminates : program.Forward ∧
    (∃ r, Machine.run {} program 8 {} ⟨.warn, #[]⟩ = some r) ∧
      program.executed 8 (State.initial {}) = 2 ^ 3 - 1 := by
  obtain ⟨hrun, hexecuted⟩ := forward_terminates forward {} {} ⟨.warn, #[]⟩
  exact ⟨forward, hrun, Nat.le_antisymm (hexecuted 8) (by decide)⟩

end Tower

end Whitespace

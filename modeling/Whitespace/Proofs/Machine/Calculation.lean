import Whitespace.Proofs.Machine.StraightLine

/-!
# Calculations

A calculation pushes numbers, moves values on the stack, and adds, subtracts and multiplies.
On integers without bound it is simulated on a list (`StackOp.simulate`).  Reducing an
integer modulo 2^64 goes along with each of the operations, so the machine has at every
place the reduced list on its stack (`StackOp.execute_of_apply`), and it lacks an operand
where the simulation does (`StackOp.execute_of_apply_eq_none`).
-/

namespace Whitespace

open Source

/-- A step of a calculation. -/
inductive StackOp where
  | push (v : Int)
  | dup
  | swap
  | discard
  | add
  | sub
  | mul
  deriving DecidableEq, Repr

namespace StackOp

/-- What the step makes of a list of integers, the topmost first, if no operand is lacking. -/
def apply : StackOp → List Int → Option (List Int)
  | push v, stack => some (v :: stack)
  | dup, a :: stack => some (a :: a :: stack)
  | swap, a :: b :: stack => some (b :: a :: stack)
  | discard, _ :: stack => some stack
  | add, r :: l :: stack => some ((l + r) :: stack)
  | sub, r :: l :: stack => some ((l - r) :: stack)
  | mul, r :: l :: stack => some ((l * r) :: stack)
  | _, _ => none

/-- Takes the steps one after the other, or tells the number of steps before the first one
that lacks an operand. -/
def simulate : List StackOp → List Int → Except Nat (List Int)
  | [], stack => .ok stack
  | op :: ops, stack =>
    match op.apply stack with
    | some stack' => (simulate ops stack').mapError (· + 1)
    | none => .error 0

/-- The instruction for the step.  It pushes the 64-bit integer that is congruent to the
number. -/
def command {τ : Type} : StackOp → Instruction τ
  | push v => .push (.ofInt v)
  | dup => .op .dup
  | swap => .op .swap
  | discard => .op .discard
  | add => .op (.arith .add)
  | sub => .op (.arith .sub)
  | mul => .op (.arith .mul)

variable {op : StackOp} {ops : List StackOp} {stack result : List Int} {s : State}

theorem isStraight_of_mem {τ : Type} {i : Instruction τ} (h : i ∈ ops.map command) :
    i.isStraight = true := by
  obtain ⟨op, -, rfl⟩ := List.mem_map.1 h
  cases op <;> rfl

theorem map_mapTarget_command {α β : Type} (ops : List StackOp) (f : α → β) :
    (ops.map command).map (Instruction.mapTarget f) = ops.map command := by
  rw [List.map_map]
  exact List.map_congr_left fun op _ => by cases op <;> rfl

/-! ## Steps on the machine -/

/-- An arithmetic step, if it goes along with reducing its operands. -/
theorem execute_arith {a : Arithmetic} {f : Int → Int → Int}
    (hf : ∀ l r, a.eval? (.ofInt l) (.ofInt r) = some (.ofInt (f l r))) {l r : Int}
    (hs : s.stack = (r :: l :: stack).map Int64.ofInt) :
    (Instruction.op (.arith a)).execute s =
      .next { s with stack := (f l r :: stack).map Int64.ofInt } := by
  rw [Instruction.execute, Operation.execute, State.pop_of_cons hs, State.pop_of_cons rfl, hf]
  rfl

/-- **A step on the machine** is the step on integers, reduced. -/
theorem execute_of_apply (h : op.apply stack = some result)
    (hs : s.stack = stack.map Int64.ofInt) :
    op.command.execute s = .next { s with stack := result.map Int64.ofInt } := by
  match op, stack with
  | push v, stack =>
    cases h
    rw [List.map_cons, ← hs]
    rfl
  | dup, a :: stack =>
    cases h
    rw [command, Instruction.execute, Operation.execute, State.pop_of_cons hs]
    rfl
  | discard, a :: stack =>
    cases h
    rw [command, Instruction.execute, Operation.execute, State.pop_of_cons hs]
  | swap, a :: b :: stack =>
    cases h
    rw [command, Instruction.execute, Operation.execute, State.pop_of_cons hs,
      State.pop_of_cons rfl]
    rfl
  | add, r :: l :: stack =>
    cases h
    have heval := fun l r => congrArg some (Int64.ofInt_add l r).symm
    exact execute_arith (a := .add) (f := (· + ·)) heval hs
  | sub, r :: l :: stack =>
    cases h
    have heval := fun l r => congrArg some (Int64.ofInt_sub l r).symm
    exact execute_arith (a := .sub) (f := (· - ·)) heval hs
  | mul, r :: l :: stack =>
    cases h
    have heval := fun l r => congrArg some (Int64.ofInt_mul l r).symm
    exact execute_arith (a := .mul) (f := (· * ·)) heval hs
  | dup, [] | discard, [] | swap, [] | add, [] | sub, [] | mul, [] => cases h
  | swap, [_] | add, [_] | sub, [_] | mul, [_] => cases h

/-- A step that lacks an operand takes off what there is. -/
theorem execute_of_apply_eq_none (h : op.apply stack = none)
    (hs : s.stack = stack.map Int64.ofInt) :
    op.command.execute s = .fault .stackUnderflow { s with stack := [] } := by
  match op, stack with
  | dup, [] | discard, [] | swap, [] | add, [] | sub, [] | mul, [] =>
    simp only [command, Instruction.execute, Operation.execute, State.pop, hs, List.map_nil]
    rw [← List.map_nil, ← hs]
  | swap, [a] | add, [a] | sub, [a] | mul, [a] =>
    simp only [command, Instruction.execute, Operation.execute, State.pop, hs, List.map_cons,
      List.map_nil]
  | push v, stack => cases h
  | dup, _ :: _ | discard, _ :: _ => cases h
  | swap, _ :: _ :: _ | add, _ :: _ :: _ | sub, _ :: _ :: _ | mul, _ :: _ :: _ => cases h

/-! ## Calculations on the machine -/

/-- **A calculation on the machine** is its simulation, reduced. -/
theorem executeAll_command (hs : s.stack = stack.map Int64.ofInt) :
    Instruction.executeAll (ops.map command) s =
      match simulate ops stack with
      | .ok result => .next { s with pc := s.pc + ops.length, stack := result.map Int64.ofInt }
      | .error k => .fault .stackUnderflow { s with pc := s.pc + (k + 1), stack := [] } := by
  induction ops generalizing s stack with
  | nil =>
    simp only [simulate, ← hs]
    rfl
  | cons op ops ih =>
    rw [List.map_cons, simulate]
    cases happly : op.apply stack with
    | none =>
      have hstep := execute_of_apply_eq_none (s := { s with pc := s.pc + 1 }) happly hs
      simp only [Instruction.executeAll, hstep]
    | some stack' =>
      have hstep := execute_of_apply (s := { s with pc := s.pc + 1 }) happly hs
      rw [Instruction.executeAll_cons_of_next hstep, ih rfl]
      dsimp only
      cases simulate ops stack' with
      | ok result => simp [Except.mapError, Nat.add_assoc, Nat.add_comm 1]
      | error k => simp [Except.mapError, Nat.add_assoc, Nat.add_comm 1]

/-- A program of these instructions, and perhaps an exit, comes to what the simulation says. -/
theorem exists_run {p : Program}
    (hp : p.toList = ops.map command ∨ p.toList = ops.map command ++ [.op .exit])
    (m : Machine) (console : Console) (log : Log) :
    ∃ fuel r, m.run p fuel console log = some r ∧
      (∀ result, simulate ops [] = .ok result → r.state.stack = result.map Int64.ofInt ∧
        (console.output.canFlush = true → r.result = .ok ())) ∧
      ∀ k, simulate ops [] = .error k →
        r.result = .error .stackUnderflow ∧ r.state.pc = k + 1 ∧ r.state.stack = [] := by
  have hstraight : ∀ i ∈ (ops.map command : List (Instruction Target)), i.isStraight = true :=
    fun _ => isStraight_of_mem
  have hexec := @executeAll_command ops [] (State.initial console) rfl
  cases hsim : simulate ops [] with
  | ok result =>
    rw [hsim] at hexec
    obtain ⟨fuel, r, hr, hresult, pc, hstate⟩ :=
      Machine.exists_run_of_executeAll hp hstraight hexec m log
    refine ⟨fuel, r, hr, ?_, nofun⟩
    rintro _ ⟨⟩
    exact ⟨by rw [hstate], hresult⟩
  | error k =>
    rw [hsim] at hexec
    have hends := (Program.HasAt.of_toList hp).ends hstraight hexec
    obtain ⟨fuel, r, hr, hout⟩ := Machine.exists_run_of_ends hends m log
    have hstate := Report.state_of_outcome hout
    refine ⟨fuel, r, hr, nofun, ?_⟩
    rintro _ ⟨⟩
    refine ⟨congrArg Outcome.result hout, ?_, ?_⟩
    · rw [hstate]
      exact Nat.zero_add _
    · rw [hstate]

end StackOp

open StackOp in
/-- **Straight-line programs compute modulo 2^64.**  A source spells the calculation with any
literals for its numbers.  If no operand is lacking on integers without bound, the run ends
well, and its stack is the list of the simulation, reduced once.  Otherwise the run is
stopped by a stack underflow behind the first step that lacks one, and nothing is left on
the stack. -/
theorem straight_line_exact (ops : List StackOp) :
    (∀ n : Numeral, (Spelling.push n).command = (StackOp.push n.signed).command) ∧
    (∃ a, SpellsOut a (ops.map command)) ∧
    ∀ a, SpellsOut a (ops.map command) → ∃ p, assemble a = .ok p ∧
      ∀ (m : Machine) (console : Console) (log : Log),
        ∃ fuel r, m.run p fuel console log = some r ∧
          (∀ result, simulate ops [] = .ok result → r.state.stack = result.map Int64.ofInt ∧
            (console.output.canFlush = true → r.result = .ok ())) ∧
          ∀ k, simulate ops [] = .error k →
            r.result = .error .stackUnderflow ∧ r.state.pc = k + 1 ∧ r.state.stack = [] := by
  have hstraight : ∀ c ∈ (ops.map command : Script), c.isStraight = true :=
    fun _ => isStraight_of_mem
  refine ⟨fun n => congrArg Instruction.push n.value_eq_ofInt, exists_spellsOut hstraight, ?_⟩
  intro a ha
  -- there are no labels, so it does not matter where they are
  obtain ⟨p, hassemble, hp⟩ := ha.assemble_eq hstraight (Script.target [])
  rw [map_mapTarget_command] at hp
  exact ⟨p, hassemble, fun m console log => StackOp.exists_run hp m console log⟩

-- the operand that is popped first stands on the right, and one operand is not enough
example : StackOp.simulate [.push (2 ^ 63), .dup, .mul, .push 1, .sub] [] = .ok [2 ^ 126 - 1] ∧
    StackOp.simulate [.push 7, .swap, .discard] [] = .error 1 := by
  decide

end Whitespace

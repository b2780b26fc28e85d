import Whitespace.Proofs.Machine.Execution

/-!
# The log of a run

A run enters an event for each instruction that it executes, and then one for
the way in which it ended (`Machine.log_run`).  That of a fault is entered when
the run is settled and not by the turn that failed, so it takes both to see it.
-/

namespace Whitespace

/-- The states in which a system moves, `fuel` of them at most. -/
def System.visited (f : System) : (fuel : Nat) → State → List State
  | 0, _ => []
  | fuel + 1, s => s ::
    match f s with
    | .next t => visited f fuel t
    | .done _ _ => []

/-- The event of the instruction that is executed next, if there is one. -/
def Program.executing? (p : Program) (s : State) : Option Event :=
  (p.get? s.pc).map fun i => .executing s.pc i s.stack.length

/-- The event of an ending. -/
def Ending.event (s : State) : Ending → Event
  | exited => .exited s.pc s.stack.length
  | ranPast => .ranPast s.pc
  | fault f => .aborted s.pc f

theorem Log.recordAll_append (log : Log) (before after : List Event) :
    log.recordAll (before ++ after) = (log.recordAll before).recordAll after :=
  List.foldl_append

namespace Program

variable {p : Program} {s t : State} {log log' : Log} {e : Ending}

/-- A turn that goes on enters its instruction. -/
theorem turn_next (h : p.turn s log = .next t log') :
    p.move s = .next t ∧ log' = log.recordAll (p.executing? s).toList := by
  refine ⟨by rw [← p.move_turn s log, h]; rfl, ?_⟩
  unfold turn at h
  unfold executing?
  cases hi : p.get? s.pc with
  | none => rw [hi] at h; cases h
  | some i =>
    rw [hi] at h
    cases hstep : i.execute { s with pc := s.pc + 1 } <;> simp only [hstep] at h <;> cases h
    rfl

/-- A turn that ends enters its instruction, if there is one, and its ending, once
that is settled. -/
theorem turn_done (h : p.turn s log = .done e t log') :
    p.move s = .done e t ∧
      (e.settle t log').log = log.recordAll ((p.executing? s).toList ++ [e.event t]) := by
  refine ⟨by rw [← p.move_turn s log, h]; rfl, ?_⟩
  unfold turn at h
  unfold executing?
  cases hi : p.get? s.pc with
  | none =>
    rw [hi] at h
    cases h
    rfl
  | some i =>
    rw [hi] at h
    cases hstep : i.execute { s with pc := s.pc + 1 } <;> simp only [hstep] at h <;> cases h <;> rfl

theorem log_settle {fuel : Nat} (h : p.execute fuel s log = some (e, t, log')) :
    (e.settle t log').log =
      log.recordAll ((System.visited p.move fuel s).filterMap p.executing? ++ [e.event t]) := by
  induction fuel generalizing s log with
  | zero => cases h
  | succ fuel ih =>
    rw [execute] at h
    cases hturn : p.turn s log with
    | next s' log₁ =>
      obtain ⟨hmove, rfl⟩ := turn_next hturn
      rw [hturn] at h
      rw [ih h, ← Log.recordAll_append, System.visited, hmove, ← List.append_assoc]
      cases hev : p.executing? s <;> simp [hev]
    | done e' t' log₁ =>
      obtain ⟨hmove, hlog⟩ := turn_done hturn
      rw [hturn] at h
      cases h
      rw [hlog, System.visited, hmove]
      cases hev : p.executing? s <;> simp [hev]

end Program

/-- **The log of a run** names the instructions that it executed, and how it
ended. -/
theorem Machine.log_run {m : Machine} {p : Program} {fuel : Nat} {console : Console} {log : Log}
    {r : Report} (h : m.run p fuel console log = some r) :
    ∃ e t, System.run p.move fuel (State.initial console) = some (e, t) ∧ r.outcome = e.close t ∧
      r.log = log.recordAll
        ((System.visited p.move fuel (State.initial console)).filterMap p.executing? ++
          [e.event t]) := by
  obtain ⟨⟨e, t, log'⟩, hexec, rfl⟩ := Option.map_eq_some_iff.1 h
  refine ⟨e, t, ?_, e.outcome_settle t log', Program.log_settle hexec⟩
  rw [← p.execute_eq_run fuel (State.initial console) log]
  exact congrArg (Option.map fun r => (r.1, r.2.1)) hexec

end Whitespace

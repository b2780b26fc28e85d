import Whitespace.Machine.Run

/-!
# Executions without a log

A log never changes how an execution goes on.  So an execution is a way to move
from state to state (`System`), told apart by the states that it reaches
(`Reaches`) and the ending that it comes to, if it does (`Ends`).  The runs of a
program are the executions of `Program.move` from a fresh machine
(`outcome_run`), and they come to an end for some number of turns iff the
execution does (`exists_run_iff`).

`Ends.of_stutter` and `Ends.exists_of_stutter` carry an execution of one system
over to another one that leaves out some of its steps.
-/

namespace Whitespace

/-- What a state leads to. -/
inductive Move where
  | next (s : State)
  | done (ending : Ending) (s : State)

/-- A way to execute, whatever is executed. -/
abbrev System := State → Move

def Move.map (φ : State → State) : Move → Move
  | next s => next (φ s)
  | done e s => done e (φ s)

def Move.state : Move → State
  | next s => s
  | done _ s => s

def Step.map (φ : State → State) : Step → Step
  | next s => .next (φ s)
  | exit s => .exit (φ s)
  | fault f s => .fault f (φ s)

def Step.move : Step → Move
  | next s => .next s
  | exit s => .done .exited s
  | fault f s => .done (.fault f) s

theorem Step.move_map (φ : State → State) (step : Step) :
    (step.map φ).move = step.move.map φ := by
  cases step <;> rfl

/-- What a turn leads to, its log left aside. -/
def Turn.move : Turn → Move
  | next s _ => .next s
  | done e s _ => .done e s

/-- One turn of a program, its log left aside. -/
def Program.move (p : Program) : System := fun s =>
  match p.get? s.pc with
  | none => .done .ranPast s
  | some i => (i.execute { s with pc := s.pc + 1 }).move

theorem Program.move_of_get? {p : Program} {s : State} {i : Instruction Target}
    (h : p.get? s.pc = some i) : p.move s = (i.execute { s with pc := s.pc + 1 }).move := by
  rw [move, h]

theorem Program.move_of_get?_eq_none {p : Program} {s : State} (h : p.get? s.pc = none) :
    p.move s = .done .ranPast s := by
  rw [move, h]

theorem Program.lt_size_of_get? {p : Program} {index : Nat} {i : Instruction Target}
    (h : p.get? index = some i) : index < p.size := by
  rw [get?_eq_getElem?] at h
  rw [size_eq_length]
  exact (List.getElem?_eq_some_iff.1 h).1

/-- Programs that fetch and execute alike move alike. -/
theorem Program.move_map {p q : Program} {φ : State → State} {s : State}
    {f : Instruction Target → Instruction Target} (hfetch : q.get? (φ s).pc = (p.get? s.pc).map f)
    (hstep : ∀ i, p.get? s.pc = some i →
      (f i).execute { φ s with pc := (φ s).pc + 1 } = (i.execute { s with pc := s.pc + 1 }).map φ) :
    q.move (φ s) = (p.move s).map φ := by
  cases hi : p.get? s.pc with
  | none =>
    rw [hi, Option.map_none] at hfetch
    rw [move_of_get?_eq_none hi, move_of_get?_eq_none hfetch]
    rfl
  | some i =>
    rw [hi, Option.map_some] at hfetch
    rw [move_of_get? hi, move_of_get? hfetch, hstep i hi, Step.move_map]

/-- The log decides nothing. -/
theorem Program.move_turn (p : Program) (s : State) (log : Log) :
    (p.turn s log).move = p.move s := by
  unfold Program.turn Program.move
  cases p.get? s.pc with
  | none => rfl
  | some i => cases h : i.execute { s with pc := s.pc + 1 } <;> simp [h, Turn.move, Step.move]

theorem Program.move_eq_next {p : Program} {s t : State} (h : p.move s = .next t) :
    ∃ i, p.get? s.pc = some i ∧ i.execute { s with pc := s.pc + 1 } = .next t := by
  unfold Program.move at h
  cases hi : p.get? s.pc with
  | none => rw [hi] at h; cases h
  | some i =>
    rw [hi] at h
    refine ⟨i, rfl, ?_⟩
    cases hstep : i.execute { s with pc := s.pc + 1 } <;> simp only [hstep] at h <;> cases h
    rfl

theorem Program.move_eq_done {p : Program} {s t : State} {e : Ending} (h : p.move s = .done e t) :
    (e = .ranPast ∧ p.get? s.pc = none ∧ t = s) ∨
      ∃ i, p.get? s.pc = some i ∧ ((e = .exited ∧ i.execute { s with pc := s.pc + 1 } = .exit t) ∨
        ∃ f, e = .fault f ∧ i.execute { s with pc := s.pc + 1 } = .fault f t) := by
  unfold Program.move at h
  cases hi : p.get? s.pc with
  | none =>
    rw [hi] at h
    cases h
    exact .inl ⟨rfl, rfl, rfl⟩
  | some i =>
    rw [hi] at h
    refine .inr ⟨i, rfl, ?_⟩
    cases hstep : i.execute { s with pc := s.pc + 1 } <;> simp only [hstep] at h <;> cases h
    · exact .inl ⟨rfl, rfl⟩
    · exact .inr ⟨_, rfl, rfl⟩

namespace System

variable {f g : System} {s t u : State} {e : Ending}

/-- Moves until the execution ends, or `fuel` times. -/
def run (f : System) : (fuel : Nat) → State → Option (Ending × State)
  | 0, _ => none
  | fuel + 1, s =>
    match f s with
    | .next s => run f fuel s
    | .done e s => some (e, s)

/-- The execution comes from the first state to the second one. -/
inductive Reaches (f : System) (s : State) : State → Prop
  | refl : Reaches f s s
  | step {t u : State} (h : Reaches f s t) (ht : f t = .next u) : Reaches f s u

/-- The execution from the first state ends, in the second one. -/
inductive Ends (f : System) : State → Ending → State → Prop
  | done {s t : State} {e : Ending} (h : f s = .done e t) : Ends f s e t
  | next {s s' t : State} {e : Ending} (h : f s = .next s') (ht : Ends f s' e t) : Ends f s e t

theorem Reaches.head (h : f s = .next t) (ht : Reaches f t u) : Reaches f s u := by
  induction ht with
  | refl => exact .step .refl h
  | step _ hu ih => exact .step ih hu

theorem Reaches.ends (h : Reaches f s t) (ht : Ends f t e u) : Ends f s e u := by
  induction h with
  | refl => exact ht
  | step _ hstep ih => exact ih (.next hstep ht)

/-- What every move keeps holds of all that is reached. -/
theorem Reaches.invariant {I : State → Prop} (h : Reaches f s t) (hs : I s)
    (hstep : ∀ u v, I u → f u = .next v → I v) : I t := by
  induction h with
  | refl => exact hs
  | step _ hu ih => exact hstep _ _ ih hu

/-- What holds between a state and the next one holds over a whole execution. -/
theorem Ends.relates {R : State → State → Prop} (hmove : ∀ u, R u (f u).state)
    (htrans : ∀ u v w, R u v → R v w → R u w) (h : Ends f s e t) : R s t := by
  induction h with
  | @done s t e h =>
    have hs := hmove s
    rwa [h] at hs
  | @next s s' t e h _ ih =>
    have hs := hmove s
    rw [h] at hs
    exact htrans s s' t hs ih

theorem Ends.exists_last (h : Ends f s e t) : ∃ u, Reaches f s u ∧ f u = .done e t := by
  induction h with
  | done h => exact ⟨_, .refl, h⟩
  | next h _ ih =>
    obtain ⟨u, hu, hlast⟩ := ih
    exact ⟨u, .head h hu, hlast⟩

theorem Ends.unique {e' : Ending} {t' : State} (h : Ends f s e t) (h' : Ends f s e' t') :
    e = e' ∧ t = t' := by
  induction h with
  | done h =>
    cases h' with
    | done h' => rw [h] at h'; cases h'; exact ⟨rfl, rfl⟩
    | next h' _ => rw [h] at h'; cases h'
  | next h _ ih =>
    cases h' with
    | done h' => rw [h] at h'; cases h'
    | next h' ht' => rw [h] at h'; cases h'; exact ih ht'

theorem Ends.of_run {fuel : Nat} (h : run f fuel s = some (e, t)) : Ends f s e t := by
  induction fuel generalizing s with
  | zero => cases h
  | succ fuel ih =>
    rw [run] at h
    cases hs : f s with
    | next s' => rw [hs] at h; exact .next hs (ih h)
    | done e' t' => rw [hs] at h; cases h; exact .done hs

theorem Ends.exists_run (h : Ends f s e t) : ∃ fuel, run f fuel s = some (e, t) := by
  induction h with
  | done h => exact ⟨1, by rw [run, h]⟩
  | next h _ ih =>
    obtain ⟨fuel, hfuel⟩ := ih
    exact ⟨fuel + 1, by rw [run, h]; exact hfuel⟩

theorem Ends.of_reaches (h : Ends f s e t) (hu : Reaches f s u) : Ends f u e t := by
  induction hu with
  | refl => exact h
  | step _ hstep ih =>
    cases ih with
    | done hdone =>
      rw [hstep] at hdone
      cases hdone
    | next hnext ht =>
      rw [hstep] at hnext
      cases hnext
      exact ht

/-- Two systems in lockstep run alike. -/
theorem run_map {φ : State → State} {s : State}
    (h : ∀ u, Reaches f s u → g (φ u) = (f u).map φ) (fuel : Nat) :
    run g fuel (φ s) = (run f fuel s).map (Prod.map id φ) := by
  induction fuel generalizing s with
  | zero => rfl
  | succ fuel ih =>
    rw [run, run, h s .refl]
    cases hs : f s with
    | next t =>
      apply ih
      intro u hu
      exact h u (.head hs hu)
    | done e t => rfl

/-! ## Systems that leave out steps -/

section Stutter

variable {φ : State → State} {μ : State → Nat}
  (h : ∀ s, g (φ s) = (f s).map φ ∨ ∃ t, f s = .next t ∧ φ t = φ s ∧ μ t < μ s)

include h

theorem Ends.of_stutter (hs : Ends f s e t) : Ends g (φ s) e (φ t) := by
  induction hs with
  | @done s t e hs =>
    rcases h s with hg | ⟨t', ht', -, -⟩
    · exact .done (by rw [hg, hs]; rfl)
    · rw [hs] at ht'
      cases ht'
  | @next s s' t e hs _ ih =>
    rcases h s with hg | ⟨t', ht', hφ, -⟩
    · exact .next (by rw [hg, hs]; rfl) ih
    · rw [hs] at ht'
      cases ht'
      rwa [hφ] at ih

/-- The steps that are left out come to an end. -/
theorem exists_reaches_lockstep (s : State) :
    ∃ t, Reaches f s t ∧ g (φ s) = (f t).map φ := by
  induction hn : μ s using Nat.strongRecOn generalizing s with
  | _ n ih =>
    rcases h s with hg | ⟨t, ht, hφ, hlt⟩
    · exact ⟨s, .refl, hg⟩
    -- `φ` has not moved, so the state that is found from `t` serves `s` as well
    · obtain ⟨u, hu, hg⟩ := ih (μ t) (hn ▸ hlt) t rfl
      exact ⟨u, .head ht hu, hφ ▸ hg⟩

theorem Ends.exists_of_stutter {x y : State} (hg : Ends g x e y) (hx : x = φ s) :
    ∃ t, y = φ t ∧ Ends f s e t := by
  induction hg generalizing s with
  | @done x y e hxy =>
    obtain ⟨u, hu, hlock⟩ := exists_reaches_lockstep h s
    rw [← hx, hxy] at hlock
    cases hfu : f u with
    | next v => rw [hfu] at hlock; cases hlock
    | done e' v =>
      rw [hfu] at hlock
      cases hlock
      exact ⟨v, rfl, hu.ends (.done hfu)⟩
  | @next x x' y e hxy _ ih =>
    obtain ⟨u, hu, hlock⟩ := exists_reaches_lockstep h s
    rw [← hx, hxy] at hlock
    cases hfu : f u with
    | next v =>
      rw [hfu] at hlock
      cases hlock
      obtain ⟨t, hy, ht⟩ := ih rfl
      exact ⟨t, hy, hu.ends (.next hfu ht)⟩
    | done e' v => rw [hfu] at hlock; cases hlock

end Stutter

end System

/-! ## Runs -/

/-- What a run leaves behind besides its log. -/
structure Outcome where
  /-- The fault of the run, or of the last flush if there was no other. -/
  result : Except Fault Unit
  state : State

def Report.outcome (r : Report) : Outcome := ⟨r.result, r.state⟩

/-- Ends a run: flushes the output once more and settles the result. -/
def Ending.close (ending : Ending) (s : State) : Outcome :=
  let (flushed, output) := s.output.flush
  match ending with
  | .fault f => ⟨.error f, { s with output }⟩
  | _ => ⟨flushed.mapError .stream, { s with output }⟩

theorem Ending.state_close (ending : Ending) (s : State) :
    (ending.close s).state = { s with output := s.output.flush.2 } := by
  cases ending <;> rfl

/-- A run without a fault ends as its last flush does. -/
theorem Ending.result_close {e : Ending} {s : State} (he : e = .ranPast ∨ e = .exited) :
    (e.close s).result =
      if s.output.canFlush then .ok () else .error (.stream .flushFailed) := by
  have hclose : (e.close s).result = s.output.flush.1.mapError .stream := by
    rcases he with rfl | rfl <;> rfl
  rw [hclose, Output.flush]
  split <;> rfl

/-- A fresh machine with these streams. -/
def State.initial (console : Console) : State := { toMachine := {}, toConsole := console }

@[simp] theorem Ending.outcome_settle (ending : Ending) (s : State) (log : Log) :
    (ending.settle s log).outcome = ending.close s := by
  cases ending <;> rfl

@[simp] theorem Machine.reset_eq (m : Machine) : m.reset = {} := rfl

theorem Program.execute_eq_run (p : Program) (fuel : Nat) (s : State) (log : Log) :
    (p.execute fuel s log).map (fun r => (r.1, r.2.1)) = System.run p.move fuel s := by
  induction fuel generalizing s log with
  | zero => rfl
  | succ fuel ih =>
    rw [Program.execute, System.run, ← p.move_turn s log]
    cases p.turn s log with
    | next s' log' => exact ih s' log'
    | done e s' log' => rfl

/-- The last flush leaves all but the output alone. -/
theorem Report.state_of_outcome {r : Report} {e : Ending} {t : State}
    (h : r.outcome = e.close t) : r.state = { t with output := t.output.flush.2 } := by
  rw [← e.state_close, ← h]
  rfl

namespace Machine

variable {p : Program} {m : Machine} {fuel : Nat} {console : Console} {log : Log}

/-- A run depends on neither the machine's past nor the log. -/
theorem outcome_run (m : Machine) (p : Program) (fuel : Nat) (console : Console) (log : Log) :
    (m.run p fuel console log).map Report.outcome =
      (System.run p.move fuel (State.initial console)).map fun r => r.1.close r.2 := by
  rw [← p.execute_eq_run fuel (State.initial console) log, run, reset_eq]
  simp [State.initial, Function.comp_def]

theorem system_run_of_run {r : Report} (h : m.run p fuel console log = some r) :
    ∃ e t, System.run p.move fuel (State.initial console) = some (e, t) ∧
      r.outcome = e.close t := by
  have hrun := outcome_run m p fuel console log
  rw [h, Option.map_some] at hrun
  obtain ⟨⟨e, t⟩, het, hr⟩ := Option.map_eq_some_iff.1 hrun.symm
  exact ⟨e, t, het, hr.symm⟩

theorem exists_run_of_system_run {e : Ending} {t : State}
    (h : System.run p.move fuel (State.initial console) = some (e, t)) (m : Machine) (log : Log) :
    ∃ r, m.run p fuel console log = some r ∧ r.outcome = e.close t := by
  have hrun := outcome_run m p fuel console log
  rw [h, Option.map_some] at hrun
  exact Option.map_eq_some_iff.1 hrun

theorem ends_of_run {r : Report} (h : m.run p fuel console log = some r) :
    ∃ e t, System.Ends p.move (State.initial console) e t ∧ r.outcome = e.close t := by
  obtain ⟨e, t, hrun, hout⟩ := system_run_of_run h
  exact ⟨e, t, .of_run hrun, hout⟩

theorem exists_run_of_ends {e : Ending} {t : State}
    (h : System.Ends p.move (State.initial console) e t) (m : Machine) (log : Log) :
    ∃ fuel r, m.run p fuel console log = some r ∧ r.outcome = e.close t := by
  obtain ⟨fuel, hfuel⟩ := h.exists_run
  exact ⟨fuel, exists_run_of_system_run hfuel m log⟩

theorem exists_run_iff :
    (∃ fuel r, m.run p fuel console log = some r) ↔
      ∃ e t, System.Ends p.move (State.initial console) e t := by
  constructor
  · rintro ⟨fuel, r, h⟩
    obtain ⟨e, t, hends, -⟩ := ends_of_run h
    exact ⟨e, t, hends⟩
  · rintro ⟨e, t, hends⟩
    obtain ⟨fuel, r, hr, -⟩ := exists_run_of_ends hends m log
    exact ⟨fuel, r, hr⟩

end Machine

end Whitespace

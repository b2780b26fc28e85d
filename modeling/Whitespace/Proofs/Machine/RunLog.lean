import Mathlib.Data.List.Forall2
import Whitespace.Proofs.Machine.Stores

/-!
# What a log tells of a run

A log of every detail has an event for each instruction that is executed, in their order
(`Program.forall₂_executing`), and then one for the way in which the run ended
(`Program.Concludes`).  The events come from the turns of a run and from its settlement, and
the last flush comes between the two; but it is no event, and all that it changes is the
result of a run without a fault (`Program.concludes_of_done`).  A log of less detail leaves
events out and does nothing else (`Machine.run_log_filter`).
-/

namespace Whitespace

/-- The event tells how a run ended. -/
def Event.isEnding : Event → Bool
  | ranPast _ | exited _ _ | aborted _ _ => true
  | _ => false

theorem System.Path.head? {f : System} {s u : State} {before : List State}
    (h : Path f s before u) : (before ++ [u]).head? = some s := by
  induction h with
  | refl => rfl
  | step _ _ ih =>
    rw [List.head?_append, ih]
    rfl

namespace Program

variable {p : Program} {s t u : State} {e : Ending} {f : Fault} {last : Event}
  {before : List State}

/-! ## Instructions that are executed -/

/-- The event names the instruction that is executed in the state, and tells where it stands
and how many values there are on the data stack before it. -/
def Executing (p : Program) (s : State) (event : Event) : Prop :=
  ∃ i, p.get? s.pc = some i ∧ event = .executing s.pc i s.stack.length

/-- The states in which an instruction is executed, of those in which a run takes a turn. -/
def executedIn (p : Program) (before : List State) (u : State) : List State :=
  if p.get? u.pc = none then before else before ++ [u]

theorem get?_of_path (h : System.Path p.move s before u) : ∀ t ∈ before, p.get? t.pc ≠ none := by
  induction h with
  | refl => exact nofun
  | step _ hmove ih =>
    intro t ht
    rcases List.mem_append.1 ht with ht | ht
    · exact ih t ht
    · obtain ⟨i, hi, -⟩ := move_eq_next hmove
      rw [List.mem_singleton.1 ht, hi]
      exact Option.some_ne_none i

theorem executing?_eq_some_iff {event : Event} :
    p.executing? s = some event ↔ p.Executing s event := by
  rw [executing?, Option.map_eq_some_iff, Executing]
  simp only [eq_comm]

/-- States that all have an instruction have an event each. -/
theorem forall₂_executing {states : List State} (h : ∀ s ∈ states, p.get? s.pc ≠ none) :
    List.Forall₂ p.Executing states (states.filterMap p.executing?) := by
  induction states with
  | nil => exact .nil
  | cons s states ih =>
    rw [List.forall_mem_cons] at h
    obtain ⟨i, hi⟩ := Option.ne_none_iff_exists'.1 h.1
    have hevent : p.executing? s = some (.executing s.pc i s.stack.length) := by
      rw [executing?, hi]
      rfl
    rw [List.filterMap_cons_some hevent]
    exact .cons (executing?_eq_some_iff.1 hevent) (ih h.2)

theorem get?_of_mem_executedIn (h : System.Path p.move s before u) :
    ∀ t ∈ p.executedIn before u, p.get? t.pc ≠ none := by
  intro t ht
  by_cases hnone : p.get? u.pc = none
  · rw [executedIn, if_pos hnone] at ht
    exact get?_of_path h t ht
  · rw [executedIn, if_neg hnone] at ht
    rcases List.mem_append.1 ht with ht | ht
    · exact get?_of_path h t ht
    · rw [List.mem_singleton.1 ht]
      exact hnone

theorem filterMap_executing? (p : Program) (before : List State) (u : State) :
    (before ++ [u]).filterMap p.executing? = (p.executedIn before u).filterMap p.executing? := by
  by_cases hnone : p.get? u.pc = none
  · have hevent : p.executing? u = none := by
      rw [executing?, hnone]
      rfl
    rw [executedIn, if_pos hnone, List.filterMap_append, List.filterMap_cons_none hevent,
      List.filterMap_nil, List.append_nil]
  · rw [executedIn, if_neg hnone]

/-! ## The end of a run -/

/-- The instruction that comes next fails. -/
def FailsAt (p : Program) (u : State) (f : Fault) : Prop :=
  ∃ i t, p.get? u.pc = some i ∧ i.execute { u with pc := u.pc + 1 } = .fault f t

/-- How the last event of a log and what the run leaves stand to the state in which the run
took its last turn. -/
structure Concludes (p : Program) (u : State) (r : Report) (last : Event) : Prop where
  isEnding : last.isEnding = true
  ranPast : last = .ranPast r.state.pc ↔ p.get? u.pc = none
  exited : last = .exited r.state.pc r.state.stack.length ↔ p.get? u.pc = some (.op .exit)
  aborted : ∀ f, last = .aborted r.state.pc f ↔ p.FailsAt u f
  /-- The result is the fault of the instruction that failed. -/
  failed : ∀ f, p.FailsAt u f → r.result = .error f
  /-- The result is that of the last flush if no instruction failed. -/
  settled : p.get? u.pc = none ∨ p.get? u.pc = some (.op .exit) →
    r.result = if u.output.canFlush then .ok () else .error (.stream .flushFailed)

theorem not_failsAt_of_get? (h : p.get? u.pc = none ∨ p.get? u.pc = some (.op .exit)) :
    ¬ p.FailsAt u f := by
  rintro ⟨i, t, hi, hstep⟩
  rw [hi] at h
  rcases h with h | h <;> cases h
  cases hstep

theorem FailsAt.unique {g : Fault} (hf : p.FailsAt u f) (hg : p.FailsAt u g) : f = g := by
  obtain ⟨i, t, hi, hstep⟩ := hf
  obtain ⟨j, v, hj, hstep'⟩ := hg
  rw [hi] at hj
  cases hj
  rw [hstep] at hstep'
  cases hstep'
  rfl

/-- **The last event** is that of the last turn. -/
theorem concludes_of_done {r : Report} (h : p.move u = .done e t) (hr : r.outcome = e.close t) :
    p.Concludes u r (e.event t) := by
  have hresult : r.result = (e.close t).result := congrArg Outcome.result hr
  have hstate := Report.state_of_outcome hr
  rcases move_eq_done h with ⟨rfl, hnone, rfl⟩ | ⟨i, hi, ⟨rfl, hstep⟩ | ⟨f, rfl, hstep⟩⟩
  · rw [Ending.result_close (.inl rfl)] at hresult
    have hfails : ∀ f, ¬ p.FailsAt t f := fun f => not_failsAt_of_get? (.inl hnone)
    exact {
      isEnding := rfl
      ranPast := by simp [Ending.event, hstate, hnone]
      exited := by simp [Ending.event, hnone]
      aborted := by simp [Ending.event, hfails]
      failed := fun f hf => absurd hf (hfails f)
      settled := fun _ => hresult }
  · obtain ⟨rfl, rfl⟩ := Instruction.eq_exit_of_exit hstep
    rw [Ending.result_close (.inr rfl)] at hresult
    have hfails : ∀ f, ¬ p.FailsAt u f := fun f => not_failsAt_of_get? (.inr hi)
    exact {
      isEnding := rfl
      ranPast := by simp [Ending.event, hi]
      exited := by simp [Ending.event, hstate, hi]
      aborted := by simp [Ending.event, hfails]
      failed := fun f hf => absurd hf (hfails f)
      settled := fun _ => hresult }
  · have hfails : p.FailsAt u f := ⟨i, t, hi, hstep⟩
    have hnone : p.get? u.pc ≠ none := by simp [hi]
    have hexit : p.get? u.pc ≠ some (.op .exit) := fun hexit =>
      not_failsAt_of_get? (.inr hexit) hfails
    exact {
      isEnding := rfl
      ranPast := by simp [Ending.event, hnone]
      exited := by simp [Ending.event, hexit]
      aborted := by
        intro g
        simp only [Ending.event, hstate, Event.aborted.injEq, true_and]
        exact ⟨fun hg => hg ▸ hfails, hfails.unique⟩
      failed := fun g hg => hresult.trans (congrArg Except.error (hfails.unique hg))
      settled := fun hend => absurd hfails (not_failsAt_of_get? hend) }

/-- Nothing but the last event tells of an ending. -/
theorem filter_isEnding {states : List State} {executed : List Event} {last : Event}
    (h : List.Forall₂ p.Executing states executed) (hlast : last.isEnding = true) :
    (executed ++ [last]).filter Event.isEnding = [last] := by
  have hnone : executed.filter Event.isEnding = [] := by
    induction h with
    | nil => rfl
    | cons hevent _ ih =>
      obtain ⟨i, -, rfl⟩ := hevent
      exact ih
  rw [List.filter_append, hnone, List.filter_cons_of_pos hlast]
  rfl

end Program

/-! ## Runs -/

namespace Machine

variable {m : Machine} {p : Program} {fuel : Nat} {console : Console} {r : Report}

/-- **A log of less detail** is what is left of the full one, and the run is the same. -/
theorem run_log_filter (h : m.run p fuel console ⟨.trace, #[]⟩ = some r) (m' : Machine)
    (limit : Level) :
    ∃ r', m'.run p fuel console ⟨limit, #[]⟩ = some r' ∧ r'.outcome = r.outcome ∧
      r'.log.events.toList = r.log.events.toList.filter fun e => e.level.keptAt limit := by
  obtain ⟨e, t, hrun, hout, hlog⟩ := log_run h
  obtain ⟨r', hr', hout'⟩ := exists_run_of_system_run hrun m' ⟨limit, #[]⟩
  obtain ⟨e', t', hrun', -, hlog'⟩ := log_run hr'
  rw [hrun] at hrun'
  cases hrun'
  refine ⟨r', hr', hout'.trans hout.symm, ?_⟩
  rw [hlog, hlog', Log.events_recordAll, Log.events_recordAll_trace]
  rfl

theorem exists_path_of_log (h : m.run p fuel console ⟨.trace, #[]⟩ = some r) :
    ∃ before u e t, System.Path p.move (State.initial console) before u ∧
      p.move u = .done e t ∧ r.outcome = e.close t ∧
      r.log.events.toList = (before ++ [u]).filterMap p.executing? ++ [e.event t] := by
  obtain ⟨e, t, hrun, hout, hlog⟩ := log_run h
  obtain ⟨before, u, hpath, hdone, hvisited⟩ := System.exists_path_of_run hrun
  refine ⟨before, u, e, t, hpath, hdone, hout, ?_⟩
  rw [hlog, hvisited, Log.events_recordAll_trace]

end Machine

/-- **The log tells the run.**  Its events are one for each instruction that is executed, in
their order, and then one for the way in which the run ended; no other event is of an ending.
If there is a first instruction, the first event is that of its execution without values on
the data stack.  A log of less detail holds the events of its levels and no others, in the
same order. -/
theorem log_tells_run {m : Machine} {p : Program} {fuel : Nat} {console : Console} {r : Report}
    (h : m.run p fuel console ⟨.trace, #[]⟩ = some r) :
    (∃ before u executed last, System.Path p.move (State.initial console) before u ∧
      (∃ e t, p.move u = .done e t) ∧
      r.log.events.toList = executed ++ [last] ∧
      List.Forall₂ p.Executing (p.executedIn before u) executed ∧
      r.log.events.toList.filter Event.isEnding = [last] ∧
      p.Concludes u r last) ∧
    (∀ i, p.get? 0 = some i → r.log.events.toList.head? = some (.executing 0 i 0)) ∧
    ∀ (m' : Machine) (limit : Level), ∃ r', m'.run p fuel console ⟨limit, #[]⟩ = some r' ∧
      r'.outcome = r.outcome ∧
      r'.log.events.toList = r.log.events.toList.filter fun e => e.level.keptAt limit := by
  obtain ⟨before, u, e, t, hpath, hdone, hout, hevents⟩ := Machine.exists_path_of_log h
  have hconcludes := Program.concludes_of_done hdone hout
  have hexecuted := Program.forall₂_executing (Program.get?_of_mem_executedIn hpath)
  refine ⟨⟨before, u, _, _, hpath, ⟨e, t, hdone⟩, ?_, hexecuted, ?_, hconcludes⟩, ?_,
    Machine.run_log_filter h⟩
  · rw [hevents, p.filterMap_executing?]
  · rw [hevents, p.filterMap_executing?]
    exact Program.filter_isEnding hexecuted hconcludes.isEnding
  · intro i hi
    obtain ⟨rest, hrest⟩ := List.head?_eq_some_iff.1 hpath.head?
    have hevent : p.executing? (State.initial console) = some (.executing 0 i 0) :=
      congrArg (Option.map _) hi
    rw [hevents, hrest, List.filterMap_cons_some hevent]
    rfl

namespace FaultBeforeFlush

/-- Writes a character and then takes a value that is not there. -/
def program : Program := .ofList [.push 65, .op .outChar, .op .discard]

/-- The last flush fails as well. -/
def console : Console := { output := { flushLimit := some 0 } }

/-- The log tells the fault of the instruction and nothing of the flush. -/
theorem told : ∃ r, Machine.run {} program 3 console ⟨.trace, #[]⟩ = some r ∧
    r.result = .error .stackUnderflow ∧
    r.log.events.toList = [.executing 0 (.push 65) 0, .executing 1 (.op .outChar) 1,
      .executing 2 (.op .discard) 0, .aborted 3 .stackUnderflow] ∧
    ∃ r', Machine.run {} program 3 console ⟨.debug, #[]⟩ = some r' ∧
      r'.log.events.toList = [.aborted 3 .stackUnderflow] := by
  obtain ⟨r, hr, hresult, hevents⟩ :
      ∃ r, Machine.run {} program 3 console ⟨.trace, #[]⟩ = some r ∧
        r.result = .error .stackUnderflow ∧
        r.log.events.toList = [.executing 0 (.push 65) 0, .executing 1 (.op .outChar) 1,
          .executing 2 (.op .discard) 0, .aborted 3 .stackUnderflow] := ⟨_, rfl, rfl, rfl⟩
  obtain ⟨-, -, hfilter⟩ := log_tells_run hr
  obtain ⟨r', hr', -, hlog⟩ := hfilter {} .debug
  refine ⟨r, hr, hresult, hevents, r', hr', ?_⟩
  rw [hlog, hevents]
  rfl

end FaultBeforeFlush

end Whitespace

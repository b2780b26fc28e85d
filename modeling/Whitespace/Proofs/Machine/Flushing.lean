import Whitespace.Proofs.Machine.Output

/-!
# Flushing

A run flushes its output before each instruction that reads, and once more when it
has stopped (`System.flushes_run`).  So all that was written is flushed whenever
input is consumed (`Program.flushed_of_consumed`).

If only the first `n` flushes succeed, then nothing is different before the next one
(`Program.move_limitFlushes`).  If that is the last flush, the run itself is over.
Otherwise it is the flush of a read, and the run ends there without reading
(`flush_discipline`).
-/

namespace Whitespace

namespace Output

/-- The same output with a writer that can be flushed `n` times in all. -/
def limitFlushes (n : Nat) (o : Output) : Output := { o with flushLimit := some n }

variable {n : Nat} {o : Output}

theorem canFlush_limitFlushes : (o.limitFlushes n).canFlush = true ↔ o.flushes.size < n :=
  decide_eq_true_iff

theorem limitFlushes_write (n : Nat) (o : Output) (bytes : List UInt8) :
    (o.limitFlushes n).write bytes = Prod.map id (limitFlushes n) (o.write bytes) := by
  rcases o with ⟨written, flushes, _ | limit, flushLimit⟩ <;> rfl

theorem limitFlushes_flush_of_lt (h : o.flushLimit = none) (hn : o.flushes.size < n) :
    (o.limitFlushes n).flush = Prod.map id (limitFlushes n) o.flush := by
  rw [flush_of_canFlush (canFlush_limitFlushes.2 hn),
    flush_of_canFlush (canFlush_of_flushLimit_eq_none h)]
  rfl

theorem limitFlushes_flush_of_le (hn : n ≤ o.flushes.size) :
    (o.limitFlushes n).flush = (.error .flushFailed, o.limitFlushes n) := by
  refine flush_of_not_canFlush ?_
  rw [canFlush_limitFlushes]
  omega

end Output

namespace Program

variable {p : Program} {n : Nat} {s u : State}

/-- A read flushes, and nothing else does. -/
theorem flushes_move (p : Program) (h : s.output.flushLimit = none) :
    (p.move s).state.output.flushes.toList =
      s.output.flushes.toList ++ if p.readsNext s then [s.output.written.size] else [] := by
  rw [output_move]
  cases hread : p.readsNext s with
  | true =>
    rw [written?_of_readsNext hread]
    simp only [↓reduceIte]
    rw [Output.flush_of_canFlush (Output.canFlush_of_flushLimit_eq_none h), Array.toList_push]
  | false =>
    cases p.written? s with
    | some bytes => simp
    | none => simp

/-- **No input is consumed while there is something to flush.** -/
theorem flushed_of_consumed (h : (p.move u).state.input.consumed ≠ u.input.consumed) :
    (p.move u).state.output.flushes.back? = some u.output.written.size ∧
      (p.move u).state.output.written = u.output.written := by
  cases hread : p.readsNext u with
  | true =>
    by_cases hcan : u.output.canFlush = true
    · rw [output_move, written?_of_readsNext hread]
      simp only [hread, ↓reduceIte]
      rw [Output.flush_of_canFlush hcan]
      exact ⟨Array.back?_push .., rfl⟩
    · rw [move_of_not_canFlush hread hcan] at h
      exact absurd rfl h
  | false =>
    exfalso
    apply h
    cases hi : p.get? u.pc with
    | none =>
      rw [move_of_get?_eq_none hi]
      rfl
    | some i =>
      cases hsource : i.source? with
      | none => rw [move_of_get? hi, Step.state_move, Instruction.input_execute, hsource]
      | some source =>
        rw [readsNext_iff.2 ⟨i, source, hi, hsource⟩] at hread
        cases hread

end Program

/-! ## Limited flushes -/

/-- An output that never fails, and that the limit has not kept from a flush yet. -/
structure Output.FlushedWithin (n : Nat) (o : Output) : Prop where
  flushLimit : o.flushLimit = none
  size_le : o.flushes.size ≤ n

/-- How a run stops in a state that is about to read once all flushes are used up. -/
structure State.StuckAt (p : Program) (n : Nat) (u : State) (e : Ending) (t : State) : Prop where
  ending : e = .fault (.stream .flushFailed)
  state : t = State.mapOutput (.limitFlushes n) { u with pc := u.pc + 1 }
  readsNext : p.readsNext u = true
  size : u.output.flushes.size = n

namespace Program

variable {p : Program} {n : Nat} {u : State}

/-- **One move with a limit on the flushes** is the move without it, or a read that
comes too late. -/
theorem move_limitFlushes (h : u.output.FlushedWithin n) :
    (p.move (u.mapOutput (.limitFlushes n)) = (p.move u).map (State.mapOutput (.limitFlushes n)) ∧
        (p.move u).state.output.FlushedWithin n) ∨
      ∃ e t, p.move (u.mapOutput (.limitFlushes n)) = .done e t ∧ u.StuckAt p n e t := by
  have hlimit : (p.move u).state.output.flushLimit = none := by
    rw [(p.grows_move u).flushLimit, h.flushLimit]
  have hflushes := congrArg List.length (p.flushes_move h.flushLimit)
  rw [List.length_append, Array.length_toList, Array.length_toList] at hflushes
  have hsize := h.size_le
  -- a read needs one more flush, and there may be none left
  by_cases hstuck : p.readsNext u = true ∧ n ≤ u.output.flushes.size
  · obtain ⟨hread, hle⟩ := hstuck
    have hread' : p.readsNext (u.mapOutput (.limitFlushes n)) = true := hread
    have hcan : ¬ (u.mapOutput (.limitFlushes n)).output.canFlush = true := by
      intro hcan
      have hlt := Output.canFlush_limitFlushes.1 hcan
      omega
    exact .inr ⟨_, _, move_of_not_canFlush hread' hcan, rfl, rfl, hread, by omega⟩
  · refine .inl ⟨?_, hlimit, ?_⟩
    · apply move_mapOutput
      · intro bytes _
        exact Output.limitFlushes_write n u.output bytes
      · intro hread
        refine Output.limitFlushes_flush_of_lt h.flushLimit ?_
        exact Nat.lt_of_not_le fun hle => hstuck ⟨hread, hle⟩
    · cases hread : p.readsNext u with
      | true =>
        have hlt : ¬ n ≤ u.output.flushes.size := fun hle => hstuck ⟨hread, hle⟩
        simp only [hread, ↓reduceIte, List.length_singleton] at hflushes
        omega
      | false =>
        simp only [hread, Bool.false_eq_true, ↓reduceIte, List.length_nil] at hflushes
        omega

end Program

/-! ## Runs -/

/-- **The flushes of an execution** come one by one from its reads. -/
theorem System.flushes_run {p : Program} {fuel : Nat} {s t : State} {e : Ending}
    (h : run p.move fuel s = some (e, t)) (hs : s.output.flushLimit = none) :
    t.output.flushes.toList = s.output.flushes.toList ++
      ((visited p.move fuel s).filter p.readsNext).map fun u => u.output.written.size := by
  induction fuel generalizing s with
  | zero => cases h
  | succ fuel ih =>
    have hmove := p.flushes_move hs
    have hlimit : (p.move s).state.output.flushLimit = none := by
      rw [(p.grows_move s).flushLimit, hs]
    rw [run] at h
    rw [visited, List.filter_cons]
    cases hnext : p.move s with
    | next s' =>
      rw [hnext] at h hmove hlimit
      have hrest := ih h hlimit
      rw [hrest]
      change s'.output.flushes.toList = _ at hmove
      rw [hmove]
      split <;> simp
    | done e' t' =>
      rw [hnext] at h hmove
      cases h
      change t.output.flushes.toList = _ at hmove
      rw [hmove]
      split <;> simp

/-- The states in which a run on these streams executes an instruction that reads. -/
def Program.readers (p : Program) (fuel : Nat) (console : Console) : List State :=
  (System.visited p.move fuel (State.initial console)).filter p.readsNext

theorem Program.readers_eq_map {p : Program} {χ : Output → Output} {fuel : Nat}
    {console : Console} {l : List State}
    (h : System.visited p.move fuel ((State.initial console).mapOutput χ) =
      l.map (State.mapOutput χ)) :
    p.readers fuel { console with output := χ console.output } =
      (l.filter p.readsNext).map (State.mapOutput χ) := by
  have hinitial : State.initial { console with output := χ console.output } =
      (State.initial console).mapOutput χ := rfl
  rw [readers, hinitial, h]
  exact List.filter_map

theorem State.StuckAt.close {p : Program} {n : Nat} {u t : State} {e : Ending}
    (h : u.StuckAt p n e t) :
    e.close t = ⟨.error (.stream .flushFailed),
      State.mapOutput (.limitFlushes n) { u with pc := u.pc + 1 }⟩ := by
  have hflush : t.output.flush = (.error .flushFailed, t.output) := by
    rw [h.state]
    exact Output.limitFlushes_flush_of_le (Nat.le_of_eq h.size.symm)
  have hstate : ({ t with output := t.output.flush.2 } : State) = t := by rw [hflush]
  rw [h.ending, ← h.state]
  exact congrArg (Outcome.mk _) hstate

/-- If the last flush fails, then that is the result, unless the run has failed
before. -/
theorem Ending.close_limitFlushes {n : Nat} (e : Ending) {t : State}
    (hlimit : t.output.flushLimit = none) (hn : n ≤ t.output.flushes.size) :
    e.close (t.mapOutput (.limitFlushes n)) =
      ⟨(e.close t).result >>= fun _ => .error (.stream .flushFailed),
        t.mapOutput (.limitFlushes n)⟩ := by
  have hflush := Output.limitFlushes_flush_of_le hn
  have hflush' := Output.flush_of_canFlush (Output.canFlush_of_flushLimit_eq_none hlimit)
  have hmap : (t.mapOutput (.limitFlushes n)).output.flush =
      (.error .flushFailed, t.output.limitFlushes n) := hflush
  unfold close
  rw [hmap, hflush']
  cases e <;> rfl

/-- A run that is stopped has made one flush for each read before. -/
theorem System.StopsAt.flushes_eq {p : Program} {φ : State → State} {fuel k : Nat} {s u : State}
    {r r' : Ending × State} {before : List State}
    (h : StopsAt p.move p.move φ fuel s r before u k r') (hrun : run p.move fuel s = some r)
    (hs : s.output.flushLimit = none) (hu : u.output.flushLimit = none) :
    u.output.flushes.toList = s.output.flushes.toList ++
      (before.filter p.readsNext).map fun v => v.output.written.size := by
  have hall := flushes_run hrun hs
  rw [h.visited_eq, List.filter_append, List.map_append, ← List.append_assoc,
    flushes_run h.rest hu] at hall
  exact List.append_cancel_right hall

theorem System.StopsAt.exists_readers {p : Program} {φ : State → State} {fuel k : Nat}
    {console : Console} {u : State} {r r' : Ending × State} {before : List State}
    (h : StopsAt p.move p.move φ fuel (State.initial console) r before u k r')
    (hu : p.readsNext u = true) :
    ∃ after, p.readers fuel console = before.filter p.readsNext ++ u :: after := by
  have hrest := h.rest
  cases k with
  | zero => cases hrest
  | succ k =>
    rw [Program.readers, h.visited_eq, List.filter_append, visited, List.filter_cons_of_pos hu]
    exact ⟨_, rfl⟩

namespace Machine

variable {m : Machine} {p : Program} {fuel : Nat} {input : Input} {log : Log} {r : Report}

/-- The log does not show what has become of the output. -/
theorem log_run_mapOutput {χ : Output → Output} {console : Console} {e : Ending} {t : State}
    {r' : Report} (h : m.run p fuel console log = some r)
    (h' : m.run p fuel { console with output := χ console.output } log = some r')
    (hrun : System.run p.move fuel (State.initial console) = some (e, t))
    (hrun' : System.run p.move fuel ((State.initial console).mapOutput χ) =
      some (e, t.mapOutput χ))
    (hvisited : System.visited p.move fuel ((State.initial console).mapOutput χ) =
      (System.visited p.move fuel (State.initial console)).map (State.mapOutput χ)) :
    r'.log = r.log := by
  obtain ⟨e₁, t₁, hrun₁, -, hlog⟩ := log_run h
  obtain ⟨e₂, t₂, hrun₂, -, hlog'⟩ := log_run h'
  have hends : (e₁, t₁) = (e, t) := Option.some.inj (hrun₁.symm.trans hrun)
  have hends' : (e₂, t₂) = (e, t.mapOutput χ) := Option.some.inj (hrun₂.symm.trans hrun')
  cases hends
  cases hends'
  have hinitial : State.initial { console with output := χ console.output } =
      (State.initial console).mapOutput χ := rfl
  have hexecuting : p.executing? ∘ State.mapOutput χ = p.executing? := rfl
  have hevent : e.event (t.mapOutput χ) = e.event t := by cases e <;> rfl
  rw [hlog, hlog', hinitial, hvisited, List.filterMap_map, hexecuting, hevent]

theorem flushes_run (h : m.run p fuel ⟨input, {}⟩ log = some r) :
    r.state.output.flushes.toList =
      (p.readers fuel ⟨input, {}⟩).map (fun u => u.output.written.size) ++
        [r.state.output.written.size] := by
  obtain ⟨e, t, hrun, hout⟩ := system_run_of_run h
  have hlimit : t.output.flushLimit = none := (System.Ends.of_run hrun).grows.flushLimit
  rw [Report.state_of_outcome hout, Output.flush_of_canFlush
    (Output.canFlush_of_flushLimit_eq_none hlimit), Array.toList_push, System.flushes_run hrun rfl]
  rfl

theorem pairwise_flushes_run (h : m.run p fuel ⟨input, {}⟩ log = some r) :
    r.state.output.flushes.toList.Pairwise (· ≤ ·) := by
  obtain ⟨e, t, hends, hout⟩ := ends_of_run h
  rw [Report.state_of_outcome hout]
  exact (List.pairwise_append.1 (hends.ordered Output.Ordered.empty).flush).1

theorem size_flushes_of_close {e : Ending} {t : State} (hout : r.outcome = e.close t)
    (hlimit : t.output.flushLimit = none) :
    r.state.output.flushes.size = t.output.flushes.size + 1 := by
  rw [Report.state_of_outcome hout, Output.flush_of_canFlush
    (Output.canFlush_of_flushLimit_eq_none hlimit), Array.size_push]

/-- If the limit has not stopped a read, then at most the last flush fails. -/
theorem outcome_of_unstopped {n : Nat} {e : Ending} {t : State} {r' : Report}
    (hout : r.outcome = e.close t) (hlimit : t.output.flushLimit = none)
    (hout' : r'.outcome = e.close (t.mapOutput (.limitFlushes n))) :
    (r.state.output.flushes.size ≤ n → r'.outcome = r.outcome.mapOutput (.limitFlushes n)) ∧
      (r.state.output.flushes.size = n + 1 →
        r'.result = (r.result >>= fun _ => .error (.stream .flushFailed)) ∧
        r'.state.toMachine = r.state.toMachine ∧ r'.state.input = r.state.input ∧
        r'.state.output.written = r.state.output.written ∧
        r'.state.output.flushes.toList = r.state.output.flushes.toList.take n) := by
  have hsize := size_flushes_of_close hout hlimit
  constructor
  · intro hn
    rw [e.close_mapOutput (Output.limitFlushes_flush_of_lt hlimit (by omega)), ← hout] at hout'
    exact hout'
  · intro hn
    rw [e.close_limitFlushes hlimit (by omega), ← hout] at hout'
    have hstate' : r'.state = t.mapOutput (.limitFlushes n) := congrArg Outcome.state hout'
    have hlength : t.output.flushes.toList.length = n := by
      rw [Array.length_toList]
      omega
    refine ⟨congrArg Outcome.result hout', ?_⟩
    rw [Report.state_of_outcome hout, hstate', Output.flush_of_canFlush
      (Output.canFlush_of_flushLimit_eq_none hlimit), Array.toList_push, List.take_left' hlength]
    exact ⟨rfl, rfl, rfl, rfl⟩

/-- If the limit stops a read, then it is the one behind the first `n`. -/
theorem outcome_of_stopped {n k : Nat} {e e' : Ending} {t t' u : State} {before : List State}
    {r' : Report} (h : m.run p fuel ⟨input, {}⟩ log = some r) (hout : r.outcome = e.close t)
    (hstops : System.StopsAt p.move p.move (State.mapOutput (.limitFlushes n)) fuel
      (State.initial ⟨input, {}⟩) (e, t) before u k (e', t'))
    (hrun : System.run p.move fuel (State.initial ⟨input, {}⟩) = some (e, t))
    (hu : u.output.flushLimit = none) (hstuck : u.StuckAt p n e' t')
    (hout' : r'.outcome = e'.close t') :
    p.readers fuel ⟨input, { flushLimit := some n }⟩ =
        ((p.readers fuel ⟨input, {}⟩).take (n + 1)).map (State.mapOutput (.limitFlushes n)) ∧
      n + 1 < r.state.output.flushes.size ∧
      ∃ u f, (p.readers fuel ⟨input, {}⟩)[n]? = some u ∧ r.state.output.flushes[n]? = some f ∧
        r'.result = .error (.stream .flushFailed) ∧
        r'.state.toMachine = { u.toMachine with pc := u.pc + 1 } ∧ r'.state.input = u.input ∧
        r'.state.output.written.toList = r.state.output.written.toList.take f ∧
        r'.state.output.flushes.toList = r.state.output.flushes.toList.take n := by
  rw [hstuck.close] at hout'
  have hstate' : r'.state = State.mapOutput (.limitFlushes n) { u with pc := u.pc + 1 } :=
    congrArg Outcome.state hout'
  have hlength : u.output.flushes.toList.length = n := by
    rw [Array.length_toList, hstuck.size]
  have hbefore := hstops.flushes_eq hrun rfl hu
  have hn : (before.filter p.readsNext).length = n := by
    rw [hbefore, List.length_append, List.length_map] at hlength
    exact (Nat.zero_add _).symm.trans hlength
  obtain ⟨after, hreaders⟩ := hstops.exists_readers hstuck.readsNext
  have hsplit : r.state.output.flushes.toList = u.output.flushes.toList ++
      u.output.written.size :: (after.map (fun v => v.output.written.size) ++
        [r.state.output.written.size]) := by
    rw [flushes_run h, hreaders, List.map_append, hbefore, List.append_assoc]
    rfl
  have hgrows : u.output.Grows r.state.output := by
    rw [Report.state_of_outcome hout]
    exact (System.Ends.of_run hstops.rest).grows.trans t.output.grows_flush
  refine ⟨?_, ?_, u, u.output.written.size, ?_, ?_, congrArg Outcome.result hout', ?_⟩
  · rw [hreaders, List.take_append, hn, List.take_of_length_le (by omega), Nat.add_sub_cancel_left,
      List.take_succ_cons, List.take_zero]
    refine (Program.readers_eq_map hstops.visited_stops).trans ?_
    rw [List.filter_append, List.filter_cons_of_pos hstuck.readsNext]
    rfl
  · rw [← Array.length_toList, hsplit, List.length_append, hlength, List.length_cons,
      List.length_append, List.length_singleton]
    omega
  · rw [hreaders, List.getElem?_append_right (by omega), hn, Nat.sub_self]
    rfl
  · rw [← Array.getElem?_toList, hsplit, List.getElem?_append_right (by omega), hlength,
      Nat.sub_self]
    rfl
  · rw [hstate', hsplit, List.take_left' hlength, hgrows.take_eq (Nat.le_refl _),
      List.take_of_length_le (Nat.le_of_eq Array.length_toList)]
    exact ⟨rfl, rfl, rfl, rfl⟩

end Machine

/-- **Flush discipline.**  A run flushes once for each instruction that reads, and once
more when it has stopped, and its input is consumed only when all is flushed.  If all
flushes but the first `n` fail, then the reads are the same up to the one behind that.
If there is no such read, then the run ends as before, but for the result of a last
flush that fails.  Otherwise it ends before that read takes place. -/
theorem flush_discipline {m : Machine} {p : Program} {fuel : Nat} {input : Input} {log : Log}
    {r : Report} (h : m.run p fuel ⟨input, {}⟩ log = some r) :
    (r.state.output.flushes.toList =
        (p.readers fuel ⟨input, {}⟩).map (fun u => u.output.written.size) ++
          [r.state.output.written.size] ∧
      r.state.output.flushes.toList.Pairwise (· ≤ ·) ∧
      ∀ u : State, (p.move u).state.input.consumed ≠ u.input.consumed →
        (p.move u).state.output.flushes.back? = some u.output.written.size ∧
          (p.move u).state.output.written = u.output.written) ∧
    ∀ n, ∃ r', m.run p fuel ⟨input, { flushLimit := some n }⟩ log = some r' ∧
      p.readers fuel ⟨input, { flushLimit := some n }⟩ =
        ((p.readers fuel ⟨input, {}⟩).take (n + 1)).map (State.mapOutput (.limitFlushes n)) ∧
      (r.state.output.flushes.size ≤ n →
        r'.outcome = r.outcome.mapOutput (.limitFlushes n) ∧ r'.log = r.log) ∧
      (r.state.output.flushes.size = n + 1 →
        r'.result = (r.result >>= fun _ => .error (.stream .flushFailed)) ∧
        r'.state.toMachine = r.state.toMachine ∧ r'.state.input = r.state.input ∧
        r'.state.output.written = r.state.output.written ∧
        r'.state.output.flushes.toList = r.state.output.flushes.toList.take n) ∧
      (n + 1 < r.state.output.flushes.size →
        ∃ u f, (p.readers fuel ⟨input, {}⟩)[n]? = some u ∧ r.state.output.flushes[n]? = some f ∧
          r'.result = .error (.stream .flushFailed) ∧
          r'.state.toMachine = { u.toMachine with pc := u.pc + 1 } ∧ r'.state.input = u.input ∧
          r'.state.output.written.toList = r.state.output.written.toList.take f ∧
          r'.state.output.flushes.toList = r.state.output.flushes.toList.take n) := by
  refine ⟨⟨Machine.flushes_run h, Machine.pairwise_flushes_run h,
    fun u => Program.flushed_of_consumed⟩, ?_⟩
  intro n
  obtain ⟨e, t, hrun, hout⟩ := Machine.system_run_of_run h
  have hlimit : t.output.flushLimit = none := (System.Ends.of_run hrun).grows.flushLimit
  have hsize := Machine.size_flushes_of_close hout hlimit
  have hlength := congrArg List.length (Machine.flushes_run h)
  rw [Array.length_toList, List.length_append, List.length_map, List.length_singleton] at hlength
  have hinitial : (State.initial ⟨input, {}⟩).output.FlushedWithin n := ⟨rfl, Nat.zero_le n⟩
  rcases System.run_map_or_stops (fun _ => p.move_limitFlushes) hinitial hrun with
    ⟨hlimited, hvisited, hwithin⟩ | ⟨before, u, k, e', t', hstops, hu, hstuck⟩
  · obtain ⟨r', hr', hout'⟩ := Machine.exists_run_of_system_run hlimited m log
    have hle : t.output.flushes.size ≤ n := hwithin.size_le
    obtain ⟨hall, hlast⟩ := Machine.outcome_of_unstopped hout hlimit hout'
    refine ⟨r', hr', ?_, ?_, hlast, ?_⟩
    · rw [List.take_of_length_le (by omega)]
      exact Program.readers_eq_map hvisited
    · intro hn
      exact ⟨hall hn, Machine.log_run_mapOutput h hr' hrun hlimited hvisited⟩
    · intro hn
      omega
  · obtain ⟨r', hr', hout'⟩ := Machine.exists_run_of_system_run hstops.stops m log
    obtain ⟨hreaders, hlt, hstopped⟩ :=
      Machine.outcome_of_stopped h hout hstops hrun hu.flushLimit hstuck hout'
    refine ⟨r', hr', hreaders, ?_, ?_, fun _ => hstopped⟩
    · intro hle
      omega
    · intro heq
      omega

namespace CopiedTwice

/-- Copies a character, and then a number. -/
def program : Program := Program.ofList
  [.op .readChar, .op .outChar, .op .readNum, .op .outNum]

def input : Input := .ofBytes [0x3D, 0x2D, 0x37, 0x0A]

/-- A writer that can be flushed once stops the run before the number is read. -/
theorem stopped_before_number :
    ∃ r, Machine.run {} program 5 ⟨input, {}⟩ ⟨.warn, #[]⟩ = some r ∧ r.result = .ok () ∧
      r.state.output.written = #[0x3D, 0x2D, 0x37] ∧ r.state.output.flushes = #[0, 1, 3] ∧
      ∃ r', Machine.run {} program 5 ⟨input, { flushLimit := some 1 }⟩ ⟨.warn, #[]⟩ = some r' ∧
        r'.result = .error (.stream .flushFailed) ∧
        r'.state.output.written.toList = [0x3D] ∧ r'.state.output.flushes.toList = [0] := by
  obtain ⟨r, hr, hresult, hwritten, hflushes⟩ :
      ∃ r, Machine.run {} program 5 ⟨input, {}⟩ ⟨.warn, #[]⟩ = some r ∧ r.result = .ok () ∧
        r.state.output.written = #[0x3D, 0x2D, 0x37] ∧
        r.state.output.flushes = #[0, 1, 3] := ⟨_, rfl, rfl, rfl, rfl⟩
  obtain ⟨r', hr', -, -, -, hstopped⟩ := (flush_discipline hr).2 1
  rw [hwritten, hflushes] at hstopped
  obtain ⟨u, f, -, hf, hresult', -, -, hwritten', hflushes'⟩ := hstopped (by decide)
  cases hf
  exact ⟨r, hr, hresult, hwritten, hflushes, r', hr', hresult', hwritten', hflushes'⟩

end CopiedTwice

end Whitespace
